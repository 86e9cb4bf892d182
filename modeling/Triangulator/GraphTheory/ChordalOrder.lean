import Triangulator.GraphTheory.Elimination
import Triangulator.GraphTheory.MaximumCardinality

/-!
# Maximum cardinality orders of chordal graphs

A maximum cardinality order of a chordal graph is a perfect elimination order,
and the clique number is read off any such order.
-/

namespace SimpleGraph

variable {V : Type*} {G : SimpleGraph V} {order p q : List V} {C : Set V}
  {x y z : V} {k : ℕ}

/-- Among the neighbours of `z` in a connected set attached to `y` and `z`, one sees
every common neighbour of `y` and `z` outside the set. -/
theorem IsChordal.exists_adj_common [Finite V] (hG : G.IsChordal) (hyz : y ≠ z)
    (hna : ¬G.Adj y z) (hC : G.IsConnectedSet C) (hyC : ∃ c ∈ C, G.Adj y c)
    (hzC : ∃ c ∈ C, G.Adj z c) (hyn : y ∉ C) (hzn : z ∉ C) :
    ∃ c ∈ C, G.Adj c z ∧ ∀ t, t ∉ C → G.Adj t y → G.Adj t z → G.Adj c t := by
  obtain ⟨T, hT, hTz, hsep⟩ := hG.exists_clique_separates hyz.symm fun h => hna h.symm
  obtain ⟨a, haC, hya⟩ := hyC
  obtain ⟨b, hbC, hzb⟩ := hzC
  have hK : G.IsClique (insert z {t | t ∈ T ∧ t ∉ C ∧ G.Adj t y}) := by
    apply IsClique.insert
    · exact hT.subset fun t ht => ht.1
    · exact fun t ht _ => hTz t ht.1
  have hconn : G.IsConnectedSet (C ∪ {y}) :=
    hC.union (isConnectedSet_singleton y) haC rfl (Or.inr hya.symm)
  obtain ⟨c, hc, hadj⟩ := hG.exists_adj_clique hconn ⟨y, Or.inr rfl⟩ hK
    (fun v hv hmem => by
      rcases hv with hv | rfl
      · rcases hmem with rfl | hmem
        · exact hzn hv
        · exact hmem.2.1 hv
      · rcases hmem with rfl | hmem
        · exact hyz rfl
        · exact hsep.right hmem.1)
    (fun t ht => by
      rcases ht with rfl | ht
      · exact ⟨b, Or.inl hbC, hzb.symm⟩
      · exact ⟨y, Or.inr rfl, ht.2.2.symm⟩)
  have hcz := hadj z (Set.mem_insert _ _)
  have hcC : c ∈ C := by
    rcases hc with hc | rfl
    · exact hc
    · exact absurd hcz hna
  refine ⟨c, hcC, hcz, ?_⟩
  intro t htC hty htz
  exact hadj t (Or.inr ⟨hsep.mem_of_common htz.symm hty.symm, htC, hty⟩)

namespace IsMcsOrder

/-- Two vertices chosen before a connected set that is attached to both are adjacent
in a chordal graph. -/
theorem adj_of_attached [Finite V] (h : G.IsMcsOrder order) (hG : G.IsChordal)
    (hsplit : order = p ++ y :: q) (hz : z ∈ q) (hC : G.IsConnectedSet C)
    (hCp : ∀ c ∈ C, c ∈ p) (hyC : ∃ c ∈ C, G.Adj y c) (hzC : ∃ c ∈ C, G.Adj z c) :
    G.Adj y z := by
  induction hn : q.length using Nat.strong_induction_on generalizing p y q z C with
  | _ n ih =>
    by_contra hna
    have hnd := h.nodup
    rw [hsplit, List.nodup_append] at hnd
    have hyq : y ∉ q := (List.nodup_cons.mp hnd.2.1).1
    have hpq : ∀ v ∈ p, v ∉ y :: q := fun v hv hmem => hnd.2.2 v hv v hmem rfl
    have hyz : y ≠ z := fun heq => hyq (heq ▸ hz)
    obtain ⟨c, hcC, hcz, hcommon⟩ := hG.exists_adj_common hyz hna hC hyC hzC
      (fun hy => hpq y (hCp y hy) List.mem_cons_self)
      (fun hz' => hpq z (hCp z hz') (List.mem_cons_of_mem y hz))
    -- `y` was chosen before `c`, which has the chosen neighbour `z` that `y` has not.
    have hmax := h.maximal p y q hsplit c (hCp c hcC)
    obtain ⟨t, ht, htc⟩ : ∃ t ∈ G.neighborSet y ∩ {w | w ∈ q}, ¬G.Adj c t := by
      by_contra hall
      push Not at hall
      have hsub : insert z (G.neighborSet y ∩ {w | w ∈ q}) ⊆
          G.neighborSet c ∩ {w | w ∈ q} := by
        rintro w (rfl | hw)
        · exact ⟨hcz, hz⟩
        · exact ⟨hall w hw, hw.2⟩
      have hcard := Set.ncard_le_ncard hsub (Set.toFinite _)
      rw [Set.ncard_insert_of_notMem (fun hmem => hna hmem.1) (Set.toFinite _)] at hcard
      exact Nat.not_succ_le_self _ (hcard.trans hmax)
    have htC : t ∉ C := fun hmem => hpq t (hCp t hmem) (List.mem_cons_of_mem y ht.2)
    have htz : t ≠ z := fun heq => hna (heq ▸ ht.1)
    have hconn : G.IsConnectedSet (C ∪ {y}) := by
      obtain ⟨a, haC, hya⟩ := hyC
      exact hC.union (isConnectedSet_singleton y) haC rfl (Or.inr hya.symm)
    have htD : ∃ d ∈ C ∪ {y}, G.Adj t d := ⟨y, Or.inr rfl, SimpleGraph.Adj.symm ht.1⟩
    have hzD : ∃ d ∈ C ∪ {y}, G.Adj z d := ⟨c, Or.inl hcC, hcz.symm⟩
    -- The neighbours of `y` behind it that see the set through `y` are handled before.
    have hstep : ∀ a b r s, q = r ++ a :: s → b ∈ s → (∃ d ∈ C ∪ {y}, G.Adj a d) →
        (∃ d ∈ C ∪ {y}, G.Adj b d) → G.Adj a b := by
      intro a b r s hqs hbs haD hbD
      have hlt : s.length < n := by
        rw [← hn, hqs, List.length_append, List.length_cons]
        omega
      have hasplit : order = (p ++ y :: r) ++ a :: s := by
        rw [hsplit, hqs, List.append_assoc, List.cons_append]
      refine ih s.length hlt hasplit hbs hconn ?_ haD hbD rfl
      intro d hd
      rcases hd with hd | rfl
      · exact List.mem_append_left _ (hCp d hd)
      · exact List.mem_append_right _ List.mem_cons_self
    have hadj : G.Adj t z := by
      obtain ⟨r, s, hrs⟩ := List.append_of_mem ht.2
      have hzmem : z ∈ r ++ t :: s := hrs ▸ hz
      rw [List.mem_append, List.mem_cons] at hzmem
      rcases hzmem with hzr | heq | hzs
      · obtain ⟨r₁, r₂, rfl⟩ := List.append_of_mem hzr
        have hq : q = r₁ ++ z :: (r₂ ++ t :: s) := by
          rw [hrs, List.append_assoc, List.cons_append]
        exact (hstep z t r₁ _ hq (by simp) hzD htD).symm
      · exact absurd heq.symm htz
      · exact hstep t z r s hrs hzs htD hzD
    exact htc (hcommon t htC (SimpleGraph.Adj.symm ht.1) hadj)

/-- A maximum cardinality order of a chordal graph is a perfect elimination order. -/
theorem isPerfectElimination [Finite V] (h : G.IsMcsOrder order) (hG : G.IsChordal) :
    G.IsPerfectElimination order where
  nodup := h.nodup
  mem := h.mem
  simplicial := by
    intro pre x post hsplit
    have hordered : ∀ a b r s, post = r ++ a :: s → b ∈ s → G.Adj x a → G.Adj x b →
        G.Adj a b := by
      intro a b r s hpost hbs hxa hxb
      have hasplit : order = (pre ++ x :: r) ++ a :: s := by
        rw [hsplit, hpost, List.append_assoc, List.cons_append]
      refine h.adj_of_attached hG hasplit hbs (isConnectedSet_singleton x) ?_
        ⟨x, rfl, hxa.symm⟩ ⟨x, rfl, hxb.symm⟩
      intro c hc
      have hcx : c = x := hc
      exact List.mem_append_right _ (hcx ▸ List.mem_cons_self)
    intro a ha b hb hab
    obtain ⟨r, s, hrs⟩ := List.append_of_mem ha.2
    have hbmem : b ∈ r ++ a :: s := hrs ▸ hb.2
    rw [List.mem_append, List.mem_cons] at hbmem
    rcases hbmem with hbr | heq | hbs
    · obtain ⟨r₁, r₂, rfl⟩ := List.append_of_mem hbr
      have hpost : post = r₁ ++ b :: (r₂ ++ a :: s) := by
        rw [hrs, List.append_assoc, List.cons_append]
      exact (hordered b a r₁ _ hpost (by simp) hb.1 ha.1).symm
    · exact absurd heq.symm hab
    · exact hordered a b r s hrs hbs ha.1 hb.1

end IsMcsOrder

/-- The clique number is the largest number of later neighbours plus one. -/
theorem IsPerfectElimination.cliqueNum_le_iff [Finite V] (h : G.IsPerfectElimination order) :
    G.cliqueNum ≤ k + 1 ↔
      ∀ pre x post, order = pre ++ x :: post → G.degreeIn post x ≤ k := by
  constructor
  · intro hk pre x post hsplit
    have hclique : G.IsClique (insert x (G.neighborSet x ∩ {w | w ∈ post})) :=
      (h.simplicial pre x post hsplit).insert fun t ht _ => ht.1
    have hnot : x ∉ G.neighborSet x ∩ {w | w ∈ post} := fun hmem => G.loopless.irrefl x hmem.1
    have hle := hclique.ncard_le_cliqueNum.trans hk
    rw [Set.ncard_insert_of_notMem hnot (Set.toFinite _)] at hle
    exact Nat.le_of_succ_le_succ hle
  · intro hk
    rw [SimpleGraph.cliqueNum_le_iff]
    intro Q hQ
    -- The clique consists of its first vertex and later neighbours of it.
    have hfirst : ∀ l : List V, ∀ pre, order = pre ++ l → (∀ v ∈ Q, v ∈ l) →
        Q.ncard ≤ k + 1 := by
      intro l
      induction l with
      | nil =>
          intro pre _ hl
          have hempty : Q = ∅ := Set.eq_empty_iff_forall_notMem.mpr fun v hv =>
            absurd (hl v hv) List.not_mem_nil
          rw [hempty, Set.ncard_empty]
          exact Nat.zero_le _
      | cons x l ih =>
          intro pre hsplit hl
          by_cases hx : x ∈ Q
          · have hsub : Q \ {x} ⊆ G.neighborSet x ∩ {w | w ∈ l} := by
              intro v hv
              have hvx : v ≠ x := hv.2
              exact ⟨hQ hx hv.1 hvx.symm, (List.mem_cons.mp (hl v hv.1)).resolve_left hvx⟩
            have hcard := (Set.ncard_le_ncard hsub (Set.toFinite _)).trans
              (hk pre x l hsplit)
            rw [← Set.ncard_sdiff_singleton_add_one hx (Set.toFinite _)]
            exact Nat.add_le_add_right hcard 1
          · apply ih (pre ++ [x])
            · rw [hsplit, List.append_assoc, List.singleton_append]
            · intro v hv
              exact (List.mem_cons.mp (hl v hv)).resolve_left fun heq => hx (heq ▸ hv)
    exact hfirst order [] rfl fun v _ => h.mem v

end SimpleGraph
