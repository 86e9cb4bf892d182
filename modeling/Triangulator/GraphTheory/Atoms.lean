import Triangulator.GraphTheory.MinimalElimination
import Triangulator.GraphTheory.CliqueDecomposition

/-!
# Clique separators from a filling order

A vertex of a filling order is a cut vertex when it starts a new maximal clique of
the triangulation and its later neighbours form a clique of the original graph.
Cutting at these vertices, from the front of the order, decomposes the graph, and a
graph without cut vertices has no clique separator.
-/

namespace SimpleGraph

variable {V : Type*} {G H K : SimpleGraph V} {order pre post p q : List V} {B S : Set V}
  {L : List (Set V)} {u v w x y z : V}

/-- The last member of a list with a property. -/
theorem exists_last_split {P : V → Prop} {l : List V} (hl : ∃ u ∈ l, P u) :
    ∃ p w q, l = p ++ w :: q ∧ P w ∧ ∀ t ∈ q, ¬P t := by
  induction l with
  | nil =>
      obtain ⟨u, hu, -⟩ := hl
      exact absurd hu List.not_mem_nil
  | cons a l ih =>
      by_cases htail : ∃ t ∈ l, P t
      · obtain ⟨p, w, q, rfl, hw, hq⟩ := ih htail
        exact ⟨a :: p, w, q, rfl, hw, hq⟩
      · obtain ⟨u, hu, hPu⟩ := hl
        rcases List.mem_cons.mp hu with rfl | hu
        · exact ⟨[], u, l, rfl, hPu, fun t ht hPt => htail ⟨t, ht, hPt⟩⟩
        · exact absurd ⟨u, hu, hPu⟩ htail

/-- The first member of a list with a property. -/
theorem exists_first_split {Q : V → Prop} {l : List V} (hl : ∃ u ∈ l, Q u) :
    ∃ p w q, l = p ++ w :: q ∧ Q w ∧ ∀ t ∈ p, ¬Q t := by
  obtain ⟨u, hu, hQu⟩ := hl
  obtain ⟨p, w, q, hsplit, hw, hp⟩ := exists_last_split (P := Q) (l := l.reverse)
    ⟨u, List.mem_reverse.mpr hu, hQu⟩
  refine ⟨q.reverse, w, p.reverse, ?_, hw, fun t ht => hp t (List.mem_reverse.mp ht)⟩
  rw [← List.reverse_reverse l, hsplit, List.reverse_append, List.reverse_cons,
    List.append_assoc, List.singleton_append]

/-- The neighbours of `x` that come later. -/
def later (H : SimpleGraph V) (post : List V) (x : V) : Set V :=
  H.neighborSet x ∩ {y | y ∈ post}

/-- The vertex chosen before `x`, which follows it in the order, had at least as many
later neighbours. -/
def IsFlagged (H : SimpleGraph V) (x : V) (post : List V) : Prop :=
  ∃ y post', post = y :: post' ∧ H.degreeIn post x ≤ H.degreeIn post' y

/-- The bits mark the flagged vertices of the order. -/
def AreFlags (H : SimpleGraph V) : List V → List Bool → Prop
  | [], [] => True
  | x :: post, bit :: bits => (bit = true ↔ H.IsFlagged x post) ∧ AreFlags H post bits
  | _, _ => False

theorem AreFlags.congr {bits : List Bool} (h : H.AreFlags order bits)
    (hdeg : ∀ pre post, order = pre ++ post → ∀ v, K.degreeIn post v = H.degreeIn post v) :
    K.AreFlags order bits := by
  induction order generalizing bits with
  | nil =>
      cases bits with
      | nil => trivial
      | cons bit bits => exact h.elim
  | cons x post ih =>
      cases bits with
      | nil => exact h.elim
      | cons bit bits =>
          obtain ⟨hbit, hbits⟩ := h
          refine ⟨?_, ih hbits fun p q hpq => hdeg (x :: p) q (by rw [hpq, List.cons_append])⟩
          rw [hbit, IsFlagged, IsFlagged]
          refine exists_congr fun y => exists_congr fun post' => and_congr_right fun hpost => ?_
          rw [hdeg [x] post rfl, hdeg [x, y] post' (by rw [hpost]; rfl)]

/-- A clique of the original graph is found behind a flagged vertex. -/
structure IsCut (G H : SimpleGraph V) (x : V) (post : List V) : Prop where
  flagged : H.IsFlagged x post
  clique : G.IsClique (H.later post x)

/-- What has been cut off, in the pieces of `L`, after the vertices of `pre` have been
examined. -/
structure CutInv (G H : SimpleGraph V) (order pre : List V) (B : Set V)
    (L : List (Set V)) : Prop where
  subset : ∀ v ∈ B, v ∈ pre
  last : ∀ p v, order = p ++ [v] → v ∉ B
  decomposes : ∀ L', G.IsCliqueDecomposition Bᶜ L' →
    G.IsCliqueDecomposition Set.univ (L ++ L')
  connected : ∀ u v, u ∉ B → v ∉ B → G.ReachIn Set.univ u v → G.ReachIn Bᶜ u v
  closed : ∀ p x q, order = p ++ x :: q → x ∈ pre → q ≠ [] → H.later q x = ∅ →
    ∀ v, G.ReachIn Set.univ x v → v ∈ B
  no_cut : L = [] → ∀ p x q, order = p ++ x :: q → x ∈ pre → ¬G.IsCut H x q

theorem CutInv.init (G H : SimpleGraph V) (order : List V) :
    G.CutInv H order [] ∅ [] where
  subset := by simp
  last := by simp
  decomposes := by simp
  connected := by simp
  closed := by simp
  no_cut := by simp

theorem notMem_later : x ∉ H.later post x :=
  fun hmem => H.loopless.irrefl x hmem.1

namespace IsFillingOrder

variable [Finite V] (h : G.IsFillingOrder H order)
include h

/-- What is connected to `x` without its later neighbours comes earlier. -/
theorem componentOf_subset (hsplit : order = pre ++ x :: post)
    (hS : H.later post x ⊆ S) : ∀ w ∈ G.componentOf S x, w = x ∨ w ∈ pre := by
  intro w hw
  by_contra hnot
  have hD : w ∉ {v | G.ReachIn {u | u ∈ pre} x v} := fun hmem => hnot hmem.eq_or_mem
  obtain ⟨a, ha, c, hc, hcS, hac⟩ := ReachIn.exists_exit
    (A := {v | G.ReachIn {u | u ∈ pre} x v}) hw (ReachIn.refl x) hD
  have hcx : c ≠ x := fun hcx => hc (hcx ▸ ReachIn.refl x)
  have hcpre : c ∉ pre := fun hmem => hc (ReachIn.tail ha hac hmem)
  have hcpost : c ∈ post := by
    have hmem := h.mem c
    rw [hsplit, List.mem_append, List.mem_cons] at hmem
    exact (hmem.resolve_left hcpre).resolve_left hcx
  -- The first vertex behind `x` that is reached is joined to `x` in the triangulation.
  have hjoin : G.JoinedBy {u | u ∈ pre} c x :=
    (joinedBy_iff_reachIn.mpr ⟨a, ha, hac⟩).symm
  obtain ⟨s, t, rfl⟩ := List.append_of_mem hcpost
  have hcsplit : order = (pre ++ x :: s) ++ c :: t := by
    rw [hsplit, List.append_assoc, List.cons_append]
  have hadj := h.adj_of_joinedBy hcsplit hsplit (List.mem_append_right _ List.mem_cons_self) hjoin
  exact hcS (hS ⟨hadj.symm, hcpost⟩)

/-- A flagged vertex does not see everything behind it. -/
theorem exists_notMem_later (hsplit : order = pre ++ x :: post) (hx : H.IsFlagged x post) :
    ∃ v ∈ post, v ∉ H.later post x := by
  by_contra hall
  push Not at hall
  obtain ⟨y, post', rfl, hle⟩ := hx
  have hnd := h.nodup
  rw [hsplit, List.nodup_append'] at hnd
  have hpost : (y :: post').Nodup := (List.nodup_cons.mp hnd.2.1).2
  have hset : H.later (y :: post') x = {v | v ∈ y :: post'} := by
    apply Set.Subset.antisymm
    · exact fun v hv => hv.2
    · exact fun v hv => hall v hv
  have hdeg : H.degreeIn (y :: post') x = (y :: post').length := by
    classical
    change (H.later (y :: post') x).ncard = _
    rw [hset, ← List.toFinset_card_of_nodup hpost, ← Set.ncard_coe_finset]
    congr 1
    ext v
    simp
  have hlength : H.degreeIn post' y ≤ post'.length := degreeIn_le_length
  have hlt := hle.trans hlength
  rw [hdeg, List.length_cons] at hlt
  exact Nat.not_succ_le_self _ hlt

end IsFillingOrder

namespace CutInv

/-- Nothing is cut off at a vertex that is not a cut vertex. -/
theorem skip (hI : G.CutInv H order pre B L) (hnd : order.Nodup)
    (hsplit : order = pre ++ x :: post) (hx : ¬G.IsCut H x post) :
    G.CutInv H order (pre ++ [x]) B L := by
  have hunique : ∀ p q, order = p ++ x :: q → q = post := by
    intro p q hq
    rw [hsplit, List.nodup_middle, List.nodup_cons, List.mem_append, not_or] at hnd
    have heq := hsplit.symm.trans hq
    rw [List.append_cons_inj_of_notMem hnd.1.1 hnd.1.2] at heq
    exact heq.2.2.symm
  refine ⟨fun v hv => List.mem_append_left _ (hI.subset v hv), hI.last, hI.decomposes,
    hI.connected, ?_, ?_⟩
  · intro p y q hq hy hne hlater
    rcases List.mem_append.mp hy with hy | hy
    · exact hI.closed p y q hq hy hne hlater
    · rw [List.mem_singleton] at hy
      subst hy
      have heq := hunique p q hq
      subst heq
      -- A vertex without later neighbours is flagged.
      exfalso
      apply hx
      obtain ⟨z, q', rfl⟩ := List.exists_cons_of_ne_nil hne
      constructor
      · refine ⟨z, q', rfl, ?_⟩
        have hzero : H.degreeIn (z :: q') y = 0 := by
          change (H.later (z :: q') y).ncard = 0
          rw [hlater, Set.ncard_empty]
        exact hzero.trans_le (Nat.zero_le _)
      · rw [hlater]
        exact Set.pairwise_empty _
  · intro hL p y q hq hy
    rcases List.mem_append.mp hy with hy | hy
    · exact hI.no_cut hL p y q hq hy
    · rw [List.mem_singleton] at hy
      subst hy
      exact hunique p q hq ▸ hx

variable [Finite V] (h : G.IsFillingOrder H order)
include h

/-- The component in front of a cut vertex is cut off. -/
theorem cut (hI : G.CutInv H order pre B L) (hsplit : order = pre ++ x :: post)
    (hx : G.IsCut H x post) :
    G.CutInv H order (pre ++ [x]) (B ∪ G.componentOf (B ∪ H.later post x) x)
      (L ++ [G.componentOf (B ∪ H.later post x) x ∪ H.later post x]) := by
  set S := H.later post x with hS
  set C := G.componentOf (B ∪ S) x with hC
  have hxs := h.notMem_of_split hsplit
  have hxB : x ∉ B := fun hmem => hxs.1 (hI.subset x hmem)
  have hxS : x ∉ S := notMem_later
  have hcomp : G.IsComponent (B ∪ S) C :=
    isComponent_componentOf fun hmem => hmem.elim hxB hxS
  have hCpre : ∀ w ∈ C, w = x ∨ w ∈ pre := h.componentOf_subset hsplit Set.subset_union_right
  have hpost : ∀ w ∈ post, w ∉ B ∧ w ∉ C := by
    intro w hw
    have hnd := h.nodup
    rw [hsplit, List.nodup_append] at hnd
    have hpre : w ∉ pre := fun hmem =>
      hnd.2.2 w hmem w (List.mem_cons_of_mem x hw) rfl
    refine ⟨fun hB => hpre (hI.subset w hB), fun hmem => ?_⟩
    rcases hCpre w hmem with rfl | hwpre
    · exact hxs.2 hw
    · exact hpre hwpre
  obtain ⟨v₀, hv₀, hv₀S⟩ := h.exists_notMem_later hsplit hx.flagged
  -- From outside the component one leaves `Bᶜ` through the clique only.
  have hexit : ∀ u v, u ∉ B ∪ C → v ∉ B ∪ C → G.ReachIn Bᶜ u v →
      G.ReachIn (B ∪ C)ᶜ u v ∨ ∃ s ∈ S, G.ReachIn (B ∪ C)ᶜ u s := by
    intro u v hu hv huv
    by_contra hno
    rw [not_or] at hno
    obtain ⟨a, ha, c, hc, hcB, hac⟩ := huv.exists_exit
      (A := {w | G.ReachIn (B ∪ C)ᶜ u w}) (ReachIn.refl u) hno.1
    have haBC : a ∉ B ∪ C := ReachIn.mem ha hu
    have hcC : c ∈ C := by
      by_contra hcC
      exact hc (ReachIn.tail ha hac fun hmem => hmem.elim hcB hcC)
    apply hno.2
    refine ⟨a, ?_, ha⟩
    by_contra haS
    have haC := hcomp.closed c hcC a hac.symm fun hmem =>
      hmem.elim (fun hB => haBC (Or.inl hB)) haS
    exact haBC (Or.inr haC)
  constructor
  · intro v hv
    rw [List.mem_append, List.mem_singleton]
    rcases hv with hv | hv
    · exact Or.inl (hI.subset v hv)
    · exact (hCpre v hv).symm
  · intro p v hv hmem
    have hlast : v ∈ post := by
      have heq : pre ++ x :: post = p ++ [v] := hsplit.symm.trans hv
      have hne : post ≠ [] := List.ne_nil_of_mem hv₀
      have hget := congrArg List.getLast? heq
      rw [List.getLast?_append, List.getLast?_concat,
        List.getLast?_cons_of_ne_nil hne] at hget
      exact List.mem_of_getLast? (by simpa [List.getLast?_eq_some_getLast hne] using hget)
    rcases hmem with hB | hC
    · exact (hpost v hlast).1 hB
    · exact (hpost v hlast).2 hC
  · intro L' hL'
    rw [List.append_assoc, List.singleton_append]
    apply hI.decomposes
    apply IsCliqueDecomposition.split
    · intro c hc hcB
      exact hcomp.notMem c hc (Or.inl hcB)
    · exact hcomp.nonempty
    · intro s hs
      exact hpost s hs.2
    · exact hx.clique
    · intro c hc v hv hcv
      by_cases hvS : v ∈ S
      · exact Or.inr hvS
      · exact Or.inl (hcomp.closed c hc v hcv fun hmem => hmem.elim hv hvS)
    · exact ⟨v₀, (hpost v₀ hv₀).1, fun hmem => hmem.elim (hpost v₀ hv₀).2 hv₀S⟩
    · rwa [Set.compl_union, ← Set.sdiff_eq] at hL'
  · intro u v hu hv huv
    have hBuv := hI.connected u v (fun hB => hu (Or.inl hB)) (fun hB => hv (Or.inl hB)) huv
    have huB : u ∉ B := fun hB => hu (Or.inl hB)
    rcases hexit u v hu hv hBuv with hreach | ⟨s, hs, hus⟩
    · exact hreach
    rcases hexit v u hv hu (hBuv.symm huB) with hreach | ⟨t, ht, hvt⟩
    · exact hreach.symm hv
    have hsout : s ∉ B ∪ C := ReachIn.mem hus hu
    have htout : t ∉ B ∪ C := ReachIn.mem hvt hv
    by_cases hst : s = t
    · subst hst
      exact hus.trans (hvt.symm hv)
    · exact (hus.tail (hx.clique hs ht hst) htout).trans (hvt.symm hv)
  · intro p y q hq hy hne hlater v hv
    rcases List.mem_append.mp hy with hy | hy
    · exact Or.inl (hI.closed p y q hq hy hne hlater v hv)
    · rw [List.mem_singleton] at hy
      subst hy
      obtain ⟨-, rfl⟩ := h.split_unique hsplit hq
      by_cases hvB : v ∈ B
      · exact Or.inl hvB
      · right
        have hreach := hI.connected y v hxB hvB hv
        rwa [hC, hS, hlater, Set.union_empty]
  · intro hL
    exact absurd hL (List.append_ne_nil_of_right_ne_nil L (List.cons_ne_nil _ _))

/-- What is left at the end is connected. -/
theorem rest_connected (hI : G.CutInv H order order B L) (hne : order ≠ []) :
    Set.Nonempty Bᶜ ∧ G.IsConnectedSet Bᶜ := by
  have hz := (List.dropLast_append_getLast hne).symm
  set z := order.getLast hne with hzdef
  have hzB : z ∉ B := hI.last _ z hz
  -- The last vertex of a component is the last vertex of all, or it was cut off.
  have hreach : ∀ v, v ∉ B → G.ReachIn Set.univ v z := by
    intro v hvB
    obtain ⟨p, w, q, hsplit, hvw, hq⟩ := exists_last_split (P := fun w => G.ReachIn Set.univ v w)
      ⟨v, h.mem v, ReachIn.refl v⟩
    by_cases hnil : q = []
    · subst hnil
      have hwz : w = z := by
        have hget := congrArg List.getLast? (hsplit.symm.trans hz)
        simpa using hget
      exact hwz ▸ hvw
    · exfalso
      apply hvB
      apply hI.closed p w q hsplit (h.mem w) hnil
      · rw [Set.eq_empty_iff_forall_notMem]
        intro t ht
        obtain ⟨s, r, rfl⟩ := List.append_of_mem ht.2
        have htsplit : order = (p ++ w :: s) ++ t :: r := by
          rw [hsplit, List.append_assoc, List.cons_append]
        have hjoin := h.joinedBy_of_adj htsplit hsplit
          (List.mem_append_right _ List.mem_cons_self) ht.1.symm
        obtain ⟨y, hwy, hyt⟩ := joinedBy_iff_reachIn.mp hjoin.symm
        have hwt : G.ReachIn Set.univ w t :=
          (hwy.mono_right (Set.subset_univ _)).tail hyt trivial
        exact hq t ht.2 (hvw.trans hwt)
      · exact hvw.symm trivial
  refine ⟨⟨z, hzB⟩, ?_⟩
  intro u hu v hv
  exact hI.connected u v hu hv ((hreach u hu).trans ((hreach v hv).symm trivial))

end CutInv

/-! ## Graphs without cut vertices -/

namespace IsFillingOrder

variable [Finite V] (h : G.IsFillingOrder H order)
include h

/-- A vertex that is not flagged has the later neighbours of the next vertex and this
vertex itself. -/
theorem later_of_not_flagged (hsplit : order = pre ++ x :: y :: post)
    (hflag : ¬H.IsFlagged x (y :: post)) :
    H.Adj x y ∧ H.later post x = H.later post y := by
  have hysplit : order = (pre ++ [x]) ++ y :: post := by
    rw [hsplit, List.append_assoc, List.singleton_append]
  have hypost := (h.notMem_of_split hysplit).2
  have hlt : H.degreeIn post y < H.degreeIn (y :: post) x := by
    by_contra hle
    exact hflag ⟨y, post, rfl, Nat.le_of_not_lt hle⟩
  have hmax := h.maximal _ y post hysplit x (List.mem_append_right _ (List.mem_singleton_self x))
  -- The count of `x` has grown past that of `y`, so `y` is a neighbour of `x`.
  have hadj : H.Adj x y := by
    by_contra hna
    rw [degreeIn_cons_of_not_adj hna] at hlt
    exact Nat.lt_irrefl _ (hlt.trans_le hmax)
  refine ⟨hadj, ?_⟩
  have hsub : H.later post x ⊆ H.later post y := by
    intro w hw
    have hwy : w ≠ y := fun heq => hypost (heq ▸ hw.2)
    have hsimp := h.isPerfectElimination.simplicial pre x (y :: post) hsplit
    exact ⟨hsimp ⟨hadj, List.mem_cons_self⟩ ⟨hw.1, List.mem_cons_of_mem y hw.2⟩ hwy.symm, hw.2⟩
  have hge : H.degreeIn post y ≤ H.degreeIn post x := by
    rw [degreeIn_cons_of_adj hypost hadj] at hlt
    exact Nat.le_of_lt_succ hlt
  exact Set.eq_of_subset_of_ncard_le hsub hge (Set.toFinite _)

variable (hcut : ∀ p x q, order = p ++ x :: q → ¬G.IsCut H x q)
include hcut

/-- When the later neighbours of a vertex lie in a clique of the graph, everything
behind the vertex does. -/
theorem post_subset_of_later_subset (hS : G.IsClique S) (hsplit : order = pre ++ x :: post)
    (hx : H.later post x ⊆ S) : ∀ w ∈ post, w ∈ S := by
  induction post generalizing pre x with
  | nil => exact fun w hw => absurd hw List.not_mem_nil
  | cons y post ih =>
      have hysplit : order = (pre ++ [x]) ++ y :: post := by
        rw [hsplit, List.append_assoc, List.singleton_append]
      have hflag : ¬H.IsFlagged x (y :: post) := fun hflag =>
        hcut pre x (y :: post) hsplit ⟨hflag, hS.subset hx⟩
      obtain ⟨hadj, heq⟩ := h.later_of_not_flagged hsplit hflag
      have hyS : y ∈ S := hx ⟨hadj, List.mem_cons_self⟩
      have hyS' : H.later post y ⊆ S := by
        rw [← heq]
        intro w hw
        exact hx ⟨hw.1, List.mem_cons_of_mem y hw.2⟩
      intro w hw
      rcases List.mem_cons.mp hw with rfl | hw
      · exact hyS
      · exact ih hysplit hyS' w hw

/-- A graph whose order has no cut vertex has no clique separator. -/
theorem isInseparable : G.IsInseparable Set.univ := by
  intro S hS u _ huS v _ hvS
  have hmin := h.isMinimalTriangulation
  -- The vertex outside the clique that is chosen first, and its component.
  obtain ⟨p, z, q, hzsplit, hzS, hq⟩ := exists_last_split (P := fun w => w ∉ S) ⟨u, h.mem u, huS⟩
  have hcomp : G.IsComponent S (G.componentOf S z) := isComponent_componentOf hzS
  by_contra hno
  have hout : ∃ w, w ∉ S ∪ G.componentOf S z := by
    by_contra hall
    push Not at hall
    have hin : ∀ w, w ∉ S → w ∈ G.componentOf S z := fun w hw => (hall w).resolve_left hw
    apply hno
    have huv := ((hin u huS).symm hzS).trans (hin v hvS)
    exact huv.mono_right fun w hw => ⟨trivial, hw⟩
  obtain ⟨w, hw⟩ := hout
  obtain ⟨p', x, q', hxsplit, hx, hq'⟩ := exists_last_split
    (P := fun w => w ∉ S ∪ G.componentOf S z) ⟨w, h.mem w, hw⟩
  have hzC : z ∈ G.componentOf S z := ReachIn.refl z
  have hzx : z ∈ q' := by
    have hzmem := h.mem z
    rw [hxsplit, List.mem_append, List.mem_cons] at hzmem
    rcases hzmem with hzp | rfl | hzq
    · -- Otherwise `x`, which lies outside the clique, comes after `z`.
      exfalso
      obtain ⟨s, t, rfl⟩ := List.append_of_mem hzp
      rw [List.append_assoc, List.cons_append] at hxsplit
      obtain ⟨-, heq⟩ := h.split_unique hzsplit hxsplit
      have hxq : x ∈ q := by rw [heq]; simp
      exact hq x hxq fun hxS => hx (Or.inl hxS)
    · exact absurd (Or.inr hzC) hx
    · exact hzq
  have hlater : H.later q' x ⊆ S := by
    intro t ht
    by_contra htS
    have htC : t ∈ G.componentOf S z := by
      by_contra htC
      exact hq' t ht.2 fun hmem => hmem.elim htS htC
    have hxN : x ∉ G.nbhd (G.componentOf S z) := fun hN => hx (Or.inl (hcomp.nbhd_subset hN))
    rcases hmin.mem_or_mem_nbhd (hS.mono_graph hmin.le) hcomp htC ht.1.symm with hxC | hxN'
    · exact hx (Or.inr hxC)
    · exact hxN hxN'
  exact hzS (h.post_subset_of_later_subset hcut hS hxsplit hlater z hzx)

end IsFillingOrder

end SimpleGraph
