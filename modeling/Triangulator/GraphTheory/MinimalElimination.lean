import Triangulator.GraphTheory.Elimination
import Triangulator.GraphTheory.Joined
import Triangulator.GraphTheory.MaximumCardinality

/-!
# Orders of a maximum cardinality search that fills

The search is run on the graph it is about to build.  A vertex not yet chosen
becomes a neighbour of the chosen vertex when the two are joined by a path of the
original graph through vertices with fewer chosen neighbours.  The graph built is a
minimal triangulation and the order, read from its front, is a perfect elimination
order of it.
-/

namespace SimpleGraph

variable {V : Type*} {G H K : SimpleGraph V} {order pre post : List V}
  {a b u v x y z : V}

/-! ## The orders -/

/-- The vertices of a list that have fewer neighbours than `z` among the chosen
vertices. -/
def lighter (H : SimpleGraph V) (pre post : List V) (z : V) : Set V :=
  {u | u ∈ pre ∧ H.degreeIn post u < H.degreeIn post z}

/-- The order is a maximum cardinality order of `H`, and the neighbours of a chosen
vertex among those not yet chosen are the vertices joined to it through lighter
ones. -/
structure IsFillingOrder (G H : SimpleGraph V) (order : List V) : Prop
    extends H.IsMcsOrder order where
  adj_iff : ∀ pre x post, order = pre ++ x :: post → ∀ z ∈ pre,
    (H.Adj x z ↔ G.JoinedBy (H.lighter pre post z) x z)

/-- Choosing a vertex adds it to the chosen neighbours of its neighbours. -/
theorem degreeIn_cons_of_adj [Finite V] (hx : x ∉ post) (h : H.Adj v x) :
    H.degreeIn (x :: post) v = H.degreeIn post v + 1 := by
  have hset : H.neighborSet v ∩ {w | w ∈ x :: post} =
      insert x (H.neighborSet v ∩ {w | w ∈ post}) := by
    ext w
    simp only [Set.mem_inter_iff, mem_neighborSet, Set.mem_ofPred_eq, List.mem_cons,
      Set.mem_insert_iff]
    constructor
    · rintro ⟨hvw, rfl | hw⟩
      · exact Or.inl rfl
      · exact Or.inr ⟨hvw, hw⟩
    · rintro (rfl | ⟨hvw, hw⟩)
      · exact ⟨h, Or.inl rfl⟩
      · exact ⟨hvw, Or.inr hw⟩
  rw [degreeIn, hset, Set.ncard_insert_of_notMem (fun hmem => hx hmem.2) (Set.toFinite _)]
  rfl

theorem degreeIn_cons_of_not_adj (h : ¬H.Adj v x) :
    H.degreeIn (x :: post) v = H.degreeIn post v := by
  have hset : H.neighborSet v ∩ {w | w ∈ x :: post} =
      H.neighborSet v ∩ {w | w ∈ post} := by
    ext w
    simp only [Set.mem_inter_iff, mem_neighborSet, Set.mem_ofPred_eq, List.mem_cons]
    constructor
    · rintro ⟨hvw, rfl | hw⟩
      · exact absurd hvw h
      · exact ⟨hvw, hw⟩
    · exact fun hw => ⟨hw.1, Or.inr hw.2⟩
  rw [degreeIn, hset]
  rfl

theorem degreeIn_le_cons [Finite V] (hx : x ∉ post) :
    H.degreeIn post v ≤ H.degreeIn (x :: post) v := by
  by_cases h : H.Adj v x
  · rw [degreeIn_cons_of_adj hx h]
    exact Nat.le_succ _
  · rw [degreeIn_cons_of_not_adj h]

theorem degreeIn_congr (h : ∀ a ∈ post, H.Adj a v ↔ K.Adj a v) :
    H.degreeIn post v = K.degreeIn post v := by
  have hset : H.neighborSet v ∩ {w | w ∈ post} = K.neighborSet v ∩ {w | w ∈ post} := by
    ext w
    constructor
    · exact fun hw => ⟨((h w hw.2).mp hw.1.symm).symm, hw.2⟩
    · exact fun hw => ⟨((h w hw.2).mpr hw.1.symm).symm, hw.2⟩
  rw [degreeIn, degreeIn, hset]

theorem degreeIn_le_length [Finite V] : H.degreeIn post v ≤ post.length := by
  classical
  have hsub : H.neighborSet v ∩ {w | w ∈ post} ⊆ (post.toFinset : Set V) := by
    intro w hw
    simpa using hw.2
  apply (Set.ncard_le_ncard hsub (Set.toFinite _)).trans
  rw [Set.ncard_coe_finset]
  exact post.toFinset_card_le

/-! ## Unfinished searches -/

/-- The vertices chosen so far, the last one in front. -/
structure IsFillingSuffix (G H : SimpleGraph V) (chosen : List V) : Prop where
  maximal : ∀ pre x post, chosen = pre ++ x :: post → ∀ y, y ∉ x :: post →
    H.degreeIn post y ≤ H.degreeIn post x
  adj_iff : ∀ pre x post, chosen = pre ++ x :: post → ∀ z, z ∉ x :: post →
    (H.Adj x z ↔ G.JoinedBy
      {u | u ∉ x :: post ∧ H.degreeIn post u < H.degreeIn post z} x z)

namespace IsFillingSuffix

theorem nil : G.IsFillingSuffix H [] :=
  ⟨by simp, by simp⟩

/-- One more vertex is chosen; the new edges are at this vertex. -/
theorem cons (h : G.IsFillingSuffix H order)
    (hagree : ∀ a ∈ order, ∀ v, K.Adj a v ↔ H.Adj a v)
    (hmax : ∀ y, y ∉ x :: order → H.degreeIn order y ≤ H.degreeIn order x)
    (hadj : ∀ z, z ∉ x :: order → (K.Adj x z ↔ G.JoinedBy
      {u | u ∉ x :: order ∧ H.degreeIn order u < H.degreeIn order z} x z)) :
    G.IsFillingSuffix K (x :: order) := by
  have hdeg : ∀ pre post, order = pre ++ post → ∀ v,
      K.degreeIn post v = H.degreeIn post v := by
    intro pre post hsplit v
    apply degreeIn_congr
    intro a ha
    exact hagree a (by rw [hsplit]; exact List.mem_append_right pre ha) v
  constructor
  · intro pre y post hsplit v hv
    cases pre with
    | nil =>
        obtain ⟨rfl, rfl⟩ := List.cons.inj hsplit
        rw [hdeg [] order rfl, hdeg [] order rfl]
        exact hmax v hv
    | cons a pre =>
        have hsplit' := (List.cons.inj hsplit).2
        have hpost : order = (pre ++ [y]) ++ post := by simp [hsplit']
        rw [hdeg _ post hpost, hdeg _ post hpost]
        exact h.maximal pre y post hsplit' v hv
  · intro pre y post hsplit z hz
    cases pre with
    | nil =>
        obtain ⟨rfl, rfl⟩ := List.cons.inj hsplit
        rw [hadj z hz]
        simp only [hdeg [] order rfl]
    | cons a pre =>
        have hsplit' := (List.cons.inj hsplit).2
        have hpost : order = (pre ++ [y]) ++ post := by simp [hsplit']
        rw [hagree y (by rw [hsplit']; simp), h.adj_iff pre y post hsplit' z hz]
        simp only [hdeg _ post hpost]

/-- A finished search. -/
theorem isFillingOrder (h : G.IsFillingSuffix H order) (hnd : order.Nodup)
    (hmem : ∀ v, v ∈ order) : G.IsFillingOrder H order := by
  have hpre : ∀ pre x post, order = pre ++ x :: post →
      ∀ v, v ∈ pre ↔ v ∉ x :: post := by
    intro pre x post hsplit v
    have hv := hmem v
    rw [hsplit, List.nodup_append] at hnd
    rw [hsplit, List.mem_append] at hv
    exact ⟨fun h h' => hnd.2.2 v h v h' rfl, fun h => hv.resolve_right h⟩
  refine ⟨⟨hnd, hmem, fun pre x post hsplit y hy => ?_⟩, fun pre x post hsplit z hz => ?_⟩
  · exact h.maximal pre x post hsplit y ((hpre pre x post hsplit y).mp hy)
  · rw [h.adj_iff pre x post hsplit z ((hpre pre x post hsplit z).mp hz), lighter]
    simp only [hpre pre x post hsplit]

end IsFillingSuffix

namespace IsFillingOrder

/-- The place of a vertex in the order. -/
theorem split_unique (h : G.IsFillingOrder H order) (hsplit : order = pre ++ x :: post)
    {pre' post' : List V} (hsplit' : order = pre' ++ x :: post') :
    pre = pre' ∧ post = post' := by
  have hnd := h.nodup
  rw [hsplit, List.nodup_middle, List.nodup_cons, List.mem_append, not_or] at hnd
  have heq := hsplit.symm.trans hsplit'
  rw [List.append_cons_inj_of_notMem hnd.1.1 hnd.1.2] at heq
  exact ⟨heq.1, heq.2.2⟩

theorem exists_split (h : G.IsFillingOrder H order) (x : V) :
    ∃ pre post, order = pre ++ x :: post :=
  List.append_of_mem (h.mem x)

theorem notMem_of_split (h : G.IsFillingOrder H order) (hsplit : order = pre ++ x :: post) :
    x ∉ pre ∧ x ∉ post := by
  have hnd := h.nodup
  rw [hsplit, List.nodup_middle, List.nodup_cons, List.mem_append, not_or] at hnd
  exact hnd.1

/-- A connected set next to `z` of vertices lighter than `z` is eliminated before
`z`. -/
theorem mem_pre_of_lighter [Finite V] (h : G.IsFillingOrder H order) {C : Set V}
    (hC : G.IsConnectedSet C) (hzC : ∃ c ∈ C, G.Adj z c)
    (hsplit : order = pre ++ post) (hz : z ∈ pre) (hlight : C ⊆ H.lighter pre post z)
    {p q : List V} (hzsplit : order = p ++ z :: q) : ∀ c ∈ C, c ∈ p := by
  induction pre using List.reverseRecOn generalizing post with
  | nil => exact absurd hz List.not_mem_nil
  | append_singleton pre x ih =>
      rw [List.append_assoc, List.singleton_append] at hsplit
      have hx := h.notMem_of_split hsplit
      by_cases hzx : z = x
      · subst hzx
        obtain ⟨rfl, -⟩ := h.split_unique hsplit hzsplit
        intro c hc
        have hmem := (hlight hc).1
        rw [List.mem_append, List.mem_singleton] at hmem
        apply hmem.resolve_right
        rintro rfl
        exact (lt_irrefl _ (hlight hc).2)
      · have hzpre : z ∈ pre := by simpa [hzx] using hz
        have hzle := h.maximal pre x post hsplit z hzpre
        -- The chosen vertex is not in the set, which is lighter than `z`.
        have hCpre : ∀ c ∈ C, c ∈ pre := by
          intro c hc
          have hmem := (hlight hc).1
          rw [List.mem_append, List.mem_singleton] at hmem
          apply hmem.resolve_right
          rintro rfl
          exact absurd (hlight hc).2 (not_lt.mpr hzle)
        apply ih hsplit hzpre
        intro c hc
        refine ⟨hCpre c hc, ?_⟩
        have hlt := (hlight hc).2
        by_cases hcx : H.Adj c x
        · -- What reaches `c` through lighter vertices reaches `z` through the set.
          have hjoin := (h.adj_iff pre x post hsplit c (hCpre c hc)).mp hcx.symm
          have hsub : insert c (H.lighter pre post c) ⊆ H.lighter pre post z := by
            rintro u (rfl | hu)
            · exact ⟨hCpre u hc, hlt⟩
            · exact ⟨hu.1, hu.2.trans hlt⟩
          have hCsub : C ⊆ H.lighter pre post z := fun u hu => ⟨hCpre u hu, (hlight hu).2⟩
          obtain ⟨D, hD, hDconn, hcD, hxD⟩ := hjoin.exists_connected
          obtain ⟨d, hdD, hxd⟩ := hxD
          obtain ⟨b, hb, hzb⟩ := hzC
          have hxz : G.JoinedBy (H.lighter pre post z) x z :=
            Or.inr ⟨D ∪ C, Set.union_subset (hD.trans hsub) hCsub,
              hDconn.union hC hcD hc (Or.inl rfl), ⟨d, Or.inl hdD, hxd⟩,
              b, Or.inr hb, hzb⟩
          have hzadj := ((h.adj_iff pre x post hsplit z hzpre).mpr hxz).symm
          rw [degreeIn_cons_of_adj hx.2 hcx, degreeIn_cons_of_adj hx.2 hzadj]
          exact Nat.succ_lt_succ hlt
        · rw [degreeIn_cons_of_not_adj hcx]
          exact hlt.trans_le (degreeIn_le_cons hx.2)

/-- An edge to a vertex not yet chosen is a path through vertices eliminated before
it. -/
theorem joinedBy_of_adj [Finite V] (h : G.IsFillingOrder H order)
    (hsplit : order = pre ++ x :: post) {p q : List V} (hzsplit : order = p ++ z :: q)
    (hz : z ∈ pre) (hxz : H.Adj x z) : G.JoinedBy {u | u ∈ p} x z := by
  have hsplit' : order = (pre ++ [x]) ++ post := by
    rw [hsplit, List.append_assoc, List.singleton_append]
  rcases (h.adj_iff pre x post hsplit z hz).mp hxz with hadj | ⟨C, hC, hconn, hxC, hzC⟩
  · exact Or.inl hadj
  · have hlight : C ⊆ H.lighter (pre ++ [x]) post z := fun c hc =>
      ⟨List.mem_append_left _ (hC hc).1, (hC hc).2⟩
    have hsub := h.mem_pre_of_lighter hconn hzC hsplit' (List.mem_append_left _ hz) hlight
      hzsplit
    exact Or.inr ⟨C, hsub, hconn, hxC, hzC⟩

/-- What stands before a vertex of a front part stands in that part. -/
theorem pre_subset (h : G.IsFillingOrder H order) (hsplit : order = pre ++ post)
    {p q : List V} (hzsplit : order = p ++ z :: q) (hz : z ∈ pre) : ∀ u ∈ p, u ∈ pre := by
  obtain ⟨p', r, rfl⟩ := List.append_of_mem hz
  rw [List.append_assoc, List.cons_append] at hsplit
  obtain ⟨rfl, -⟩ := h.split_unique hsplit hzsplit
  intro u hu
  exact List.mem_append_left _ hu

/-- Some vertex of a set that joins `x` to a nonneighbour `z` is heavier than `z` once
`x` is chosen. -/
theorem exists_heavier [Finite V] (h : G.IsFillingOrder H order)
    (hsplit : order = pre ++ x :: post) (hz : z ∈ pre) (hna : ¬H.Adj x z) {C : Set V}
    (hCpre : ∀ c ∈ C, c ∈ pre) (hC : G.IsConnectedSet C) (hxC : ∃ c ∈ C, G.Adj x c)
    (hzC : ∃ c ∈ C, G.Adj z c) :
    ∃ y ∈ C, H.degreeIn post z < H.degreeIn (x :: post) y := by
  by_contra hno
  push Not at hno
  have hx := h.notMem_of_split hsplit
  apply hna
  -- All vertices of the set that are joined to `x` are lighter than `z`.
  have hlight : ∀ v ∈ C, G.JoinedBy (H.lighter pre post z) x v →
      v ∈ H.lighter pre post z := by
    intro v hv hjoin
    refine ⟨hCpre v hv, lt_of_not_ge fun hge => ?_⟩
    have hle : H.degreeIn post v ≤ H.degreeIn post z :=
      (degreeIn_le_cons hx.2).trans (hno v hv)
    have heq : H.degreeIn post v = H.degreeIn post z := le_antisymm hle hge
    have hxv : H.Adj x v := by
      rw [h.adj_iff pre x post hsplit v (hCpre v hv), lighter, heq]
      exact hjoin
    have hbound := hno v hv
    rw [degreeIn_cons_of_adj hx.2 hxv.symm, heq] at hbound
    exact Nat.not_succ_le_self _ hbound
  obtain ⟨a, ha, hxa⟩ := hxC
  obtain ⟨b, hb, hzb⟩ := hzC
  have haL := hlight a ha (Or.inl hxa)
  have hreach := (hC a ha b hb).mem_of_closed
    (A := {v | v ∈ C ∧ G.ReachIn (H.lighter pre post z) x v})
    ⟨ha, ReachIn.of_adj hxa haL⟩ fun v hv v' hv' hadj =>
      ⟨hv', hv.2.tail hadj (hlight v' hv' (joinedBy_iff_reachIn.mpr ⟨v, hv.2, hadj⟩))⟩
  rw [h.adj_iff pre x post hsplit z hz, joinedBy_iff_reachIn]
  exact ⟨b, hreach.2, hzb.symm⟩

/-- A path through vertices eliminated before `z` makes an edge. -/
theorem adj_of_joinedBy [Finite V] (h : G.IsFillingOrder H order)
    (hsplit : order = pre ++ x :: post) {p q : List V} (hzsplit : order = p ++ z :: q)
    (hz : z ∈ pre) (hjoin : G.JoinedBy {u | u ∈ p} x z) : H.Adj x z := by
  rcases hjoin with hadj | ⟨C, hCp, hC, hxC, hzC⟩
  · exact (h.adj_iff pre x post hsplit z hz).mpr (Or.inl hadj)
  by_contra hna
  have hx := h.notMem_of_split hsplit
  have hzp := (h.notMem_of_split hzsplit).1
  have hppre := h.pre_subset hsplit hzsplit hz
  have hCpre : ∀ c ∈ C, c ∈ pre := fun c hc => hppre c (hCp hc)
  obtain ⟨y, hy, hheavy⟩ := h.exists_heavier hsplit hz hna hCpre hC hxC hzC
  -- A heaviest vertex of the set is chosen before `z`, which the set precedes.
  obtain ⟨m, hm, hmax⟩ := Set.exists_max_image C (H.degreeIn (x :: post)) (Set.toFinite C)
    ⟨y, hy⟩
  have hzm : H.degreeIn (x :: post) z < H.degreeIn (x :: post) m := by
    rw [degreeIn_cons_of_not_adj fun hzx => hna hzx.symm]
    exact hheavy.trans_le (hmax y hy)
  obtain ⟨c₀, hc₀, hzc₀⟩ := hzC
  have hD : G.IsConnectedSet ({z} ∪ C) :=
    (isConnectedSet_singleton z).union hC rfl hc₀ (Or.inr hzc₀)
  have hcomp := isComponent_componentOf (G := G) (v := z)
    (S := {v | ¬(v ∈ ({z} ∪ C : Set V) ∧
      H.degreeIn (x :: post) v < H.degreeIn (x :: post) m)})
    (fun hmem => hmem ⟨Or.inl rfl, hzm⟩)
  set B := G.componentOf {v | ¬(v ∈ ({z} ∪ C : Set V) ∧
    H.degreeIn (x :: post) v < H.degreeIn (x :: post) m)} z with hB
  have hBmem : ∀ b ∈ B, b ∈ ({z} ∪ C : Set V) ∧
      H.degreeIn (x :: post) b < H.degreeIn (x :: post) m :=
    fun b hb => not_not.mp (hcomp.notMem b hb)
  obtain ⟨b, hbB, y', hy'B, hy'D, hby'⟩ := (hD z (Or.inl rfl) m (Or.inr hm)).exists_exit
    (A := B) mem_componentOf_self fun hmB => lt_irrefl _ (hBmem m hmB).2
  have hy'w : ¬H.degreeIn (x :: post) y' < H.degreeIn (x :: post) m := fun hlt =>
    hy'B (hcomp.closed b hbB y' hby' fun hmem => hmem ⟨hy'D, hlt⟩)
  have hy'C : y' ∈ C := by
    apply hy'D.resolve_left
    rintro rfl
    exact hy'w hzm
  obtain ⟨p', q', hy'split⟩ := h.exists_split y'
  have hBlight : B ⊆ H.lighter pre (x :: post) y' := by
    intro c hc
    refine ⟨?_, (hBmem c hc).2.trans_le (not_lt.mp hy'w)⟩
    rcases (hBmem c hc).1 with rfl | hcC
    · exact hz
    · exact hCpre c hcC
  have hzp' := h.mem_pre_of_lighter hcomp.connected ⟨b, hbB, hby'.symm⟩ hsplit
    (hCpre y' hy'C) hBlight hy'split z mem_componentOf_self
  exact hzp (h.pre_subset hzsplit hy'split (hCp hy'C) z hzp')

/-! ## The graph built -/

/-- The chosen neighbours of a vertex are adjacent. -/
theorem isPerfectElimination [Finite V] (h : G.IsFillingOrder H order) :
    H.IsPerfectElimination order where
  nodup := h.nodup
  mem := h.mem
  simplicial := by
    intro pre x post hsplit a ha b hb hab
    -- Of the two, the one chosen first is joined to the other through `x`.
    have hordered : ∀ a b, H.Adj x a → H.Adj x b → ∀ p q r,
        order = p ++ b :: (q ++ a :: r) → x ∈ p → H.Adj a b := by
      intro a b hxa hxb p q r hb hxp
      have ha : order = (p ++ b :: q) ++ a :: r := by
        rw [hb, List.append_assoc, List.cons_append]
      have hxsub : ∀ u ∈ pre, u ∈ p := h.pre_subset hb hsplit hxp
      have hax := h.joinedBy_of_adj ha hsplit (List.mem_append_left _ hxp) hxa.symm
      have hbx := h.joinedBy_of_adj hb hsplit hxp hxb.symm
      apply h.adj_of_joinedBy ha hb (by simp)
      apply (hax.trans hbx.symm).mono
      rintro u (rfl | hu)
      · exact hxp
      · exact hxsub u hu
    have hapost : a ∈ post := ha.2
    obtain ⟨s, t, rfl⟩ := List.append_of_mem hapost
    have hbpost : b ∈ s ++ a :: t := hb.2
    rw [List.mem_append, List.mem_cons] at hbpost
    rcases hbpost with hbs | rfl | hbt
    · obtain ⟨s, r, rfl⟩ := List.append_of_mem hbs
      exact hordered a b ha.1 hb.1 (pre ++ x :: s) r t (by simp [hsplit]) (by simp)
    · exact absurd rfl hab
    · obtain ⟨r, t, rfl⟩ := List.append_of_mem hbt
      exact (hordered b a hb.1 ha.1 (pre ++ x :: s) r t (by simp [hsplit]) (by simp)).symm

/-- No chordal graph lies strictly between the graph and the graph built. -/
theorem le_of_isChordal [Finite V] (h : G.IsFillingOrder H order) (hK : K.IsChordal)
    (hGK : G ≤ K) (hKH : K ≤ H) : H ≤ K := by
  have hchosen : ∀ post pre, order = pre ++ post → ∀ a ∈ post, ∀ b,
      H.Adj a b → K.Adj a b := by
    intro post
    induction post with
    | nil => exact fun _ _ _ ha => absurd ha List.not_mem_nil
    | cons x post ih =>
        intro pre hsplit a ha z haz
        have ih' := ih (pre ++ [x]) (by rw [hsplit, List.append_assoc, List.singleton_append])
        rcases List.mem_cons.mp ha with rfl | ha
        · have hz := h.mem z
          rw [hsplit, List.mem_append, List.mem_cons] at hz
          rcases hz with hz | rfl | hz
          · by_contra hna
            rcases (h.adj_iff pre a post hsplit z hz).mp haz with hadj |
              ⟨C, hC, hconn, ⟨c, hc, hac⟩, ⟨d, hd, hzd⟩⟩
            · exact hna (hGK hadj)
            -- A clique separates the ends, so it contains a vertex of the path and
            -- all common neighbours.
            obtain ⟨T, hT, -, hsep⟩ := hK.exists_clique_separates haz.ne hna
            obtain ⟨y, hyC, hyT⟩ := hsep.exists_mem (hconn.mono hGK) (hGK hac) hc hd
              (hGK hzd)
            have hsub : H.neighborSet z ∩ {w | w ∈ post} ⊆
                H.neighborSet y ∩ {w | w ∈ post} := by
              rintro w ⟨hzw, hw⟩
              have hwpost : w ∈ post := hw
              have haw : a ≠ w := by
                rintro rfl
                exact (h.notMem_of_split hsplit).2 hwpost
              obtain ⟨p, r, rfl⟩ := List.append_of_mem hz
              have haw' : H.Adj a w := by
                apply h.isPerfectElimination.simplicial p z (r ++ a :: post)
                  (by simp [hsplit])
                · exact ⟨haz.symm, by simp⟩
                · exact ⟨hzw, by simp [hwpost]⟩
                · exact haw
              have hwT : w ∈ T := hsep.mem_of_common (ih' w hwpost a haw'.symm).symm
                (ih' w hwpost z hzw.symm).symm
              refine ⟨hKH (hT hyT hwT ?_), hw⟩
              rintro rfl
              have hnd := h.nodup
              rw [hsplit, List.nodup_append] at hnd
              exact hnd.2.2 y (hC hyC).1 y (List.mem_cons_of_mem _ hwpost) rfl
            exact absurd (hC hyC).2
              (not_lt.mpr (Set.ncard_le_ncard hsub (Set.toFinite _)))
          · exact absurd haz (H.loopless.irrefl z)
          · exact (ih' z hz a haz.symm).symm
        · exact ih' a ha z haz
  intro a b hab
  exact hchosen order [] rfl a (h.mem a) b hab

/-- The graph built is a minimal triangulation. -/
theorem isMinimalTriangulation [Finite V] (h : G.IsFillingOrder H order) :
    G.IsMinimalTriangulation H := by
  have hle : G ≤ H := by
    intro a b hab
    obtain ⟨pre, post, hsplit⟩ := h.exists_split a
    have hb := h.mem b
    rw [hsplit, List.mem_append, List.mem_cons] at hb
    rcases hb with hb | rfl | hb
    · exact (h.adj_iff pre a post hsplit b hb).mpr (Or.inl hab)
    · exact absurd hab (G.loopless.irrefl b)
    · obtain ⟨r, t, rfl⟩ := List.append_of_mem hb
      have ha : order = (pre ++ a :: r) ++ b :: t := by
        rw [hsplit, List.append_assoc, List.cons_append]
      exact ((h.adj_iff (pre ++ a :: r) b t ha a (by simp)).mpr (Or.inl hab.symm)).symm
  refine ⟨⟨hle, h.isPerfectElimination.isChordal⟩, fun K hK hKH => ?_⟩
  exact h.le_of_isChordal hK.chordal hK.le hKH

end IsFillingOrder

end SimpleGraph
