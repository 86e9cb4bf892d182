import Triangulator.GraphTheory.Atoms
import Triangulator.Verification.McsMSearch
import Triangulator.Verification.GraphUpdate
import Triangulator.Verification.McsOrder

/-!
# `McsM` computes a minimal triangulation

The label of a vertex counts its chosen neighbours in the filled graph, so the order
is one of a maximum cardinality search of the filled graph, and the graph built is a
minimal triangulation whose elimination game the order plays.
-/

namespace Triangulator

open SimpleGraph

variable {n : ℕ} {g : Graph n}

namespace Mcs

variable {x y z v : Fin n} {order post : List (Fin n)} {fill : List (Fin n × Fin n)}
  {zs : List (Fin n)}

/-! ## The chosen vertex -/

/-- The state of the scan for the largest label over the vertices of `l`. -/
structure Selected (rm : Fin n → Bool) (label : Fin n → ℕ) (l : List (Fin n))
    (p : Option (Fin n) × ℕ) : Prop where
  none : p.1 = none → p.2 = 0 ∧ ∀ v ∈ l, rm v = true
  some : ∀ x, p.1 = some x → rm x = false ∧ label x = p.2 ∧
    ∀ v ∈ l, rm v = false → label v ≤ p.2

theorem selected_fold (rm : Fin n → Bool) (label : Fin n → ℕ) (l : List (Fin n)) :
    Selected rm label l (l.foldl
      (fun (p : Option (Fin n) × ℕ) i =>
        if !rm i && decide (p.2 ≤ label i) then (some i, label i) else p)
      (none, 0)) := by
  induction l using List.reverseRecOn with
  | nil => exact ⟨by simp, by simp⟩
  | append_singleton l i ih =>
      rw [List.foldl_append]
      set p := l.foldl
        (fun (p : Option (Fin n) × ℕ) i =>
          if !rm i && decide (p.2 ≤ label i) then (some i, label i) else p) (none, 0)
      rw [List.foldl_cons, List.foldl_nil]
      by_cases hi : (!rm i && decide (p.2 ≤ label i)) = true
      · rw [if_pos hi]
        rw [Bool.and_eq_true, Bool.not_eq_true', decide_eq_true_eq] at hi
        refine ⟨by simp, fun x hx => ?_⟩
        obtain rfl : i = x := Option.some.inj hx
        refine ⟨hi.1, rfl, fun v hv hrm => ?_⟩
        rcases List.mem_append.mp hv with hv | hv
        · cases hp : p.1 with
          | none =>
              rw [(ih.none hp).2 v hv] at hrm
              cases hrm
          | some y => exact ((ih.some y hp).2.2 v hv hrm).trans hi.2
        · rw [List.mem_singleton.mp hv]
      · rw [if_neg hi]
        rw [Bool.and_eq_true, Bool.not_eq_true', decide_eq_true_eq, not_and] at hi
        refine ⟨fun hp => ⟨(ih.none hp).1, fun v hv => ?_⟩, fun x hx => ?_⟩
        · rcases List.mem_append.mp hv with hv | hv
          · exact (ih.none hp).2 v hv
          · rw [List.mem_singleton.mp hv]
            by_contra hrm
            exact hi (by simpa using hrm) ((ih.none hp).1 ▸ Nat.zero_le _)
        · obtain ⟨h1, h2, h3⟩ := ih.some x hx
          refine ⟨h1, h2, fun v hv hrm => ?_⟩
          rcases List.mem_append.mp hv with hv | hv
          · exact h3 v hv hrm
          · rw [List.mem_singleton.mp hv] at hrm ⊢
            exact (not_le.mp (hi hrm)).le

theorem selectMax_spec {rm : Fin n → Bool} {label : Fin n → ℕ} (hy : rm y = false) :
    ∃ x, selectMax rm label = some x ∧ rm x = false ∧
      ∀ v, rm v = false → label v ≤ label x := by
  have h := selected_fold rm label (List.finRange n)
  rw [selectMax]
  set p := (List.finRange n).foldl
    (fun (p : Option (Fin n) × ℕ) i =>
      if !rm i && decide (p.2 ≤ label i) then (some i, label i) else p) (none, 0)
  cases hp : p.1 with
  | none =>
      have hrm := (h.none hp).2 y (List.mem_finRange y)
      rw [hy] at hrm
      cases hrm
  | some x =>
      obtain ⟨h1, h2, h3⟩ := h.some x hp
      exact ⟨x, rfl, h1, fun v hv => h2 ▸ h3 v (List.mem_finRange v) hv⟩

/-! ## The labels of the neighbours -/

theorem raise_neighbors (rm : Fin n → Bool) (label : Fin n → ℕ) {ns : List (Fin n)}
    (hnd : ns.Nodup) (hv : rm v = false) :
    ns.foldl (raiseNeighbor rm) label v = label v + if v ∈ ns then 1 else 0 := by
  induction ns generalizing label with
  | nil => simp
  | cons y ns ih =>
      rw [List.nodup_cons] at hnd
      rw [List.foldl_cons, ih _ hnd.2, raiseNeighbor]
      by_cases hy : rm y = true
      · have hvy : v ≠ y := by
          rintro rfl
          rw [hv] at hy
          cases hy
        simp [hy, hvy]
      · rw [if_neg hy]
        by_cases hvy : v = y
        · subst hvy
          simp [hnd.1]
        · rw [Function.update_of_ne hvy]
          simp [hvy]

/-! ## The main loop -/

/-- The state after the vertices of `order` have been chosen. -/
structure McsMInv (g : Graph n) (order : List (Fin n)) (s : McsMState n) : Prop where
  order_eq : s.order = order
  nodup : order.Nodup
  rm_iff : ∀ v, s.rm v = true ↔ v ∈ order
  reach_empty : ∀ j, s.reach j = []
  isFill : g.toSimple.IsFill s.fill
  fill_chosen : ∀ p ∈ s.fill, p.1 ∈ order
  label_eq : ∀ v, v ∉ order → s.label v = (g.toSimple.addFill s.fill).degreeIn order v
  filling : g.toSimple.IsFillingSuffix (g.toSimple.addFill s.fill) order
  length_eq : s.isMaximalPoint.length = order.length
  flags : (g.toSimple.addFill s.fill).AreFlags order s.isMaximalPoint
  prev_init : order = [] → s.prevLabel = -1
  prev_eq : ∀ y post, order = y :: post →
    s.prevLabel = ((g.toSimple.addFill s.fill).degreeIn post y : ℤ)

theorem mcsMInv_init (g : Graph n) : McsMInv g [] (McsMState.init n) where
  order_eq := rfl
  nodup := List.nodup_nil
  rm_iff := by simp [McsMState.init]
  reach_empty := fun _ => rfl
  isFill := isFill_nil
  fill_chosen := by simp [McsMState.init]
  label_eq := by simp [McsMState.init, degreeIn]
  filling := IsFillingSuffix.nil
  length_eq := rfl
  flags := trivial
  prev_init := fun _ => rfl
  prev_eq := by simp

/-- The fill edges of one search, added to those at vertices chosen before. -/
theorem addFill_search_adj (hx : x ∉ order) (hchosen : ∀ p ∈ fill, p.1 ∈ order)
    (hzs : ∀ z ∈ zs, z ∉ order ∧ z ≠ x) :
    (∀ a ∈ order, ∀ v, (g.toSimple.addFill (fill ++ zs.map fun z => (x, z))).Adj a v ↔
      (g.toSimple.addFill fill).Adj a v) ∧
    ∀ v, v ∉ order →
      ((g.toSimple.addFill (fill ++ zs.map fun z => (x, z))).Adj x v ↔
        g.toSimple.Adj x v ∨ v ∈ zs) := by
  constructor
  · intro a ha v
    rw [addFill_append, addFill_adj]
    constructor
    · rintro (h | ⟨-, hmem⟩)
      · exact h
      · -- A new pair contains no chosen vertex.
        obtain ⟨p, hp, heq⟩ := List.mem_map.mp hmem
        obtain ⟨z, hz, rfl⟩ := List.mem_map.mp hp
        rw [Sym2.eq_iff] at heq
        rcases heq with ⟨rfl, -⟩ | ⟨-, rfl⟩
        · exact absurd ha hx
        · exact absurd ha (hzs z hz).1
    · exact Or.inl
  · intro v hv
    rw [addFill_append, addFill_adj, addFill_adj]
    constructor
    · rintro ((h | ⟨-, hmem⟩) | ⟨-, hmem⟩)
      · exact Or.inl h
      · obtain ⟨p, hp, heq⟩ := List.mem_map.mp hmem
        have hp1 := hchosen p hp
        rw [Sym2.eq_iff] at heq
        rcases heq with ⟨hpx, -⟩ | ⟨hpv, -⟩
        · exact absurd (hpx ▸ hp1) hx
        · exact absurd (hpv ▸ hp1) hv
      · obtain ⟨p, hp, heq⟩ := List.mem_map.mp hmem
        obtain ⟨z, hz, rfl⟩ := List.mem_map.mp hp
        rw [Sym2.eq_iff] at heq
        rcases heq with ⟨-, hzv⟩ | ⟨-, hzx⟩
        · exact Or.inr (hzv ▸ hz)
        · exact absurd hzx (hzs z hz).2
    · rintro (h | hz)
      · exact Or.inl (Or.inl h)
      · refine Or.inr ⟨(hzs v hz).2.symm, ?_⟩
        exact List.mem_map.mpr ⟨(x, v), List.mem_map.mpr ⟨v, hz, rfl⟩, rfl⟩

/-- The fill edges of one search are new. -/
theorem isFill_search (hx : x ∉ order) (hchosen : ∀ p ∈ fill, p.1 ∈ order)
    (hfill : g.toSimple.IsFill fill) (hnd : zs.Nodup)
    (hzs : ∀ z ∈ zs, z ∉ order ∧ z ≠ x) (hna : ∀ z ∈ zs, ¬g.toSimple.Adj x z) :
    g.toSimple.IsFill (fill ++ zs.map fun z => (x, z)) := by
  constructor
  · intro p hp
    rcases List.mem_append.mp hp with hp | hp
    · exact hfill.nonEdge p hp
    · obtain ⟨z, hz, rfl⟩ := List.mem_map.mp hp
      exact ⟨(hzs z hz).2.symm, hna z hz⟩
  · rw [List.map_append, List.nodup_append']
    refine ⟨hfill.nodup, ?_, fun e he he' => ?_⟩
    · rw [List.map_map]
      apply hnd.map_on
      intro a _ b _ hab
      exact Sym2.congr_right.mp hab
    · obtain ⟨p, hp, rfl⟩ := List.mem_map.mp he
      obtain ⟨q, hq, heq⟩ := List.mem_map.mp he'
      obtain ⟨z, hz, rfl⟩ := List.mem_map.mp hq
      have hp1 := hchosen p hp
      rw [Sym2.eq_iff] at heq
      rcases heq with ⟨hxp, -⟩ | ⟨-, hzp⟩
      · rw [← hxp] at hp1
        exact hx hp1
      · rw [← hzp] at hp1
        exact (hzs z hz).1 hp1

/-- The state after a round in which `x` is chosen and the search leaves `t`. -/
def McsMState.next (g : Graph n) (s : McsMState n) (x : Fin n) (t : Sweep n) :
    McsMState n where
  label := (g.adjList x).foldl (raiseNeighbor (Function.update s.rm x true)) t.label
  rm := Function.update s.rm x true
  reach := t.reach
  fill := t.fill
  order := x :: s.order
  isMaximalPoint := decide ((s.label x : ℤ) ≤ s.prevLabel) :: s.isMaximalPoint
  prevLabel := s.label x

theorem mcsMRound_eq {s : McsMState n} {t : Sweep n} (hsel : selectMax s.rm s.label = some x)
    (hlt : s.label x < n)
    (hsweep : sweep g (Function.update s.rm x true) x
      ⟨s.label, fun _ => false, s.reach, s.fill⟩ = some t) :
    mcsMRound g s = some (s.next g x t) := by
  rw [mcsMRound, hsel, Option.bind_eq_bind, Option.bind_some, if_pos hlt]
  dsimp only
  rw [hsweep]
  rfl

/-- The labels are indices of buckets. -/
theorem McsMInv.label_lt {s : McsMState n} (h : McsMInv g order s) (hv : v ∉ order) :
    s.label v < n := by
  have hlen := (List.nodup_cons.mpr ⟨hv, h.nodup⟩).length_le_card
  rw [List.length_cons, Fintype.card_fin] at hlen
  rw [h.label_eq v hv]
  exact lt_of_le_of_lt degreeIn_le_length hlen

/-- A round of the main loop. -/
theorem McsMInv.step (hg : g.Valid) {s : McsMState n} (h : McsMInv g order s)
    (hy : y ∉ order) :
    ∃ x s', mcsMRound g s = some s' ∧ x ∉ order ∧ McsMInv g (x :: order) s' := by
  have hfalse : ∀ v, s.rm v = false ↔ v ∉ order := fun v => by
    rw [← h.rm_iff, Bool.not_eq_true]
  obtain ⟨x, hsel, hxrm, hmax⟩ : ∃ x, selectMax s.rm s.label = some x ∧ s.rm x = false ∧
      ∀ v, s.rm v = false → s.label v ≤ s.label x := selectMax_spec ((hfalse y).mpr hy)
  have hx : x ∉ order := (hfalse x).mp hxrm
  set H := g.toSimple.addFill s.fill with hH
  have hlt : ∀ v, v ∉ order → s.label v < n := fun v hv => h.label_lt hv
  have hrm : ∀ v, Function.update s.rm x true v = false ↔ v ∉ x :: order := by
    intro v
    by_cases hv : v = x
    · simp [hv]
    · simp [hfalse, hv]
  have hlabel : ∀ v, Function.update s.rm x true v = false → s.label v < n :=
    fun v hv => hlt v fun hmem => (hrm v).mp hv (List.mem_cons_of_mem x hmem)
  obtain ⟨t, zs, hsweep, ht⟩ := sweep_spec hg hlabel (Function.update_self ..)
    (t := ⟨s.label, fun _ => false, s.reach, s.fill⟩) rfl rfl h.reach_empty
  have hzs : ∀ z ∈ zs, z ∉ order ∧ z ≠ x := by
    intro z hz
    have hz' := (hrm z).mp ((ht.mem_iff z).mp hz).1
    rw [List.mem_cons, not_or] at hz'
    exact ⟨hz'.2, hz'.1⟩
  obtain ⟨hagree, hadjx⟩ := addFill_search_adj (g := g) hx h.fill_chosen hzs
  refine ⟨x, s.next g x t, mcsMRound_eq hsel (hlt x hx) hsweep, hx, ?_⟩
  -- The vertices the search may pass are those whose label is smaller.
  have hbelow : ∀ z, z ∉ order →
      below (Function.update s.rm x true) s.label (s.label z) =
        {u | u ∉ x :: order ∧ H.degreeIn order u < H.degreeIn order z} := by
    intro z hz
    ext u
    rw [below, Set.mem_ofPred_eq, Set.mem_ofPred_eq, hrm, h.label_eq z hz]
    constructor
    · rintro ⟨hu, hlt⟩
      rw [h.label_eq u fun hmem => hu (List.mem_cons_of_mem x hmem)] at hlt
      exact ⟨hu, hlt⟩
    · rintro ⟨hu, hlt⟩
      rw [h.label_eq u fun hmem => hu (List.mem_cons_of_mem x hmem)]
      exact ⟨hu, hlt⟩
  have hnew : ∀ z, z ∉ x :: order →
      ((g.toSimple.addFill t.fill).Adj x z ↔ g.toSimple.JoinedBy
        {u | u ∉ x :: order ∧ H.degreeIn order u < H.degreeIn order z} x z) := by
    intro z hz
    have hz' : z ∉ order := fun hmem => hz (List.mem_cons_of_mem x hmem)
    rw [ht.fill_eq, hadjx z hz', ht.mem_iff, hrm, hbelow z hz']
    constructor
    · rintro (hadj | ⟨-, -, hjoin⟩)
      · exact Or.inl hadj
      · exact hjoin
    · intro hjoin
      by_cases hadj : g.toSimple.Adj x z
      · exact Or.inl hadj
      · exact Or.inr ⟨hz, hadj, hjoin⟩
  have hagree' : ∀ a ∈ order, ∀ v, (g.toSimple.addFill t.fill).Adj a v ↔ H.Adj a v := by
    intro a ha v
    rw [ht.fill_eq]
    exact hagree a ha v
  have hdeg' : ∀ pre post, order = pre ++ post → ∀ v,
      (g.toSimple.addFill t.fill).degreeIn post v = H.degreeIn post v := by
    intro pre post hsplit v
    apply degreeIn_congr
    intro a ha
    exact hagree' a (by rw [hsplit]; exact List.mem_append_right pre ha) v
  have hflag : decide ((s.label x : ℤ) ≤ s.prevLabel) = true ↔
      (g.toSimple.addFill t.fill).IsFlagged x order := by
    rw [decide_eq_true_eq, h.label_eq x hx, IsFlagged]
    cases order with
    | nil =>
        rw [h.prev_init rfl]
        constructor
        · intro hle
          omega
        · rintro ⟨y, post, hnil, -⟩
          cases hnil
    | cons y post =>
        rw [h.prev_eq y post rfl, Nat.cast_le, ← hH]
        constructor
        · intro hle
          refine ⟨y, post, rfl, ?_⟩
          rwa [hdeg' [] _ rfl, hdeg' [y] post rfl]
        · rintro ⟨y', post', hcons, hle⟩
          obtain ⟨rfl, rfl⟩ := List.cons.inj hcons
          rwa [hdeg' [] _ rfl, hdeg' [y] post rfl] at hle
  exact
    { order_eq := congrArg (x :: ·) h.order_eq
      nodup := List.nodup_cons.mpr ⟨hx, h.nodup⟩
      rm_iff := by
        intro v
        change Function.update s.rm x true v = true ↔ v ∈ x :: order
        rw [← not_iff_not, Bool.not_eq_true, hrm]
      reach_empty := ht.reach_empty
      isFill := by
        change g.toSimple.IsFill t.fill
        rw [ht.fill_eq]
        exact isFill_search hx h.fill_chosen h.isFill ht.nodup hzs
          fun z hz => ((ht.mem_iff z).mp hz).2.1
      fill_chosen := by
        intro p hp
        change p ∈ t.fill at hp
        rw [ht.fill_eq, List.mem_append] at hp
        rcases hp with hp | hp
        · exact List.mem_cons_of_mem x (h.fill_chosen p hp)
        · obtain ⟨z, -, rfl⟩ := List.mem_map.mp hp
          exact List.mem_cons_self
      label_eq := by
        intro v hv
        have hvo : v ∉ order := fun hmem => hv (List.mem_cons_of_mem x hmem)
        rw [McsMState.next]
        dsimp only
        rw [raise_neighbors _ _ (hg.nodup_adjList x) ((hrm v).mpr hv), ht.label_eq,
          h.label_eq v hvo, ← hH]
        have hdeg : (g.toSimple.addFill t.fill).degreeIn order v = H.degreeIn order v :=
          degreeIn_congr fun a ha => hagree' a ha v
        have hxv : (g.toSimple.addFill t.fill).Adj x v ↔ g.toSimple.Adj x v ∨ v ∈ zs := by
          rw [ht.fill_eq]
          exact hadjx v hvo
        by_cases hadj : g.toSimple.Adj x v
        · have hvz : v ∉ zs := fun hz => ((ht.mem_iff v).mp hz).2.1 hadj
          rw [degreeIn_cons_of_adj hx (hxv.mpr (Or.inl hadj)).symm, hdeg, if_neg hvz,
            if_pos (hg.mem_adjList_iff.mpr hadj)]
        · have hmem : v ∉ g.adjList x := fun hmem => hadj (hg.mem_adjList_iff.mp hmem)
          by_cases hz : v ∈ zs
          · rw [degreeIn_cons_of_adj hx (hxv.mpr (Or.inr hz)).symm, hdeg, if_pos hz,
              if_neg hmem, Nat.add_zero]
          · have hnadj : ¬(g.toSimple.addFill t.fill).Adj v x := by
              intro hvx
              exact (hxv.mp hvx.symm).elim hadj hz
            rw [degreeIn_cons_of_not_adj hnadj, hdeg, if_neg hz, if_neg hmem, Nat.add_zero]
      filling := by
        apply h.filling.cons hagree'
        · intro v hv
          have hvo : v ∉ order := fun hmem => hv (List.mem_cons_of_mem x hmem)
          rw [← h.label_eq v hvo, ← h.label_eq x hx]
          exact hmax v ((hfalse v).mpr hvo)
        · exact hnew
      length_eq := congrArg Nat.succ h.length_eq
      flags := ⟨hflag, h.flags.congr hdeg'⟩
      prev_init := fun hnil => absurd hnil (List.cons_ne_nil _ _)
      prev_eq := by
        intro a post hcons
        obtain ⟨rfl, rfl⟩ := List.cons.inj hcons
        change (s.label x : ℤ) = ((g.toSimple.addFill t.fill).degreeIn order x : ℤ)
        rw [h.label_eq x hx, ← hH, hdeg' [] order rfl] }

theorem mcsMLoop_spec (hg : g.Valid) (it : ℕ) {s : McsMState n} (h : McsMInv g order s)
    (hlen : it + order.length = n) :
    ∃ s' order', mcsMLoop g it s = some s' ∧ McsMInv g order' s' ∧ order'.length = n := by
  induction it generalizing s order with
  | zero => exact ⟨s, order, rfl, h, by omega⟩
  | succ it ih =>
      obtain ⟨y, hy⟩ := exists_notMem_of_length_lt (l := order) (by omega)
      obtain ⟨x, s', hround, -, h'⟩ := h.step hg hy
      obtain ⟨s'', order', hloop, h''⟩ := ih h' (by rw [List.length_cons]; omega)
      refine ⟨s'', order', ?_, h''⟩
      rw [mcsMLoop, hround, Option.bind_eq_bind, Option.bind_some]
      exact hloop

/-- What `McsM` returns. -/
structure McsMSpec (g : Graph n) (out : McsMOutput n) : Prop where
  isFill : g.toSimple.IsFill out.fillEdges
  filling : g.toSimple.IsFillingOrder (g.toSimple.addFill out.fillEdges)
    out.eliminationOrder
  length_eq : out.isMaximalCliquePoint.length = n
  flags : (g.toSimple.addFill out.fillEdges).AreFlags out.eliminationOrder
    out.isMaximalCliquePoint

theorem mcsM_exists (hg : g.Valid) : ∃ out, mcsM g = some out ∧ McsMSpec g out := by
  obtain ⟨s, order, hloop, h, hlen⟩ := mcsMLoop_spec hg n (mcsMInv_init g) (by simp)
  refine ⟨⟨s.fill, s.order, s.isMaximalPoint⟩, ?_, h.isFill, ?_, ?_, ?_⟩
  · rw [mcsM, hloop]
    rfl
  · dsimp only
    rw [h.order_eq]
    exact h.filling.isFillingOrder h.nodup (mem_of_length_eq h.nodup hlen)
  · exact h.length_eq.trans hlen
  · dsimp only
    rw [h.order_eq]
    exact h.flags

namespace McsMSpec

variable {out : McsMOutput n}

theorem isMinimalTriangulation (h : McsMSpec g out) :
    g.toSimple.IsMinimalTriangulation (g.toSimple.addFill out.fillEdges) :=
  h.filling.isMinimalTriangulation

/-- Every fill edge is needed. -/
theorem not_isChordal_of_subset (h : McsMSpec g out) {kept : List (Fin n × Fin n)}
    (hsub : kept ⊆ out.fillEdges) {e : Fin n × Fin n} (he : e ∈ out.fillEdges)
    (hek : e ∉ kept) : ¬(g.toSimple.addFill kept).IsChordal := by
  intro hchordal
  have hle : g.toSimple.addFill kept ≤ g.toSimple.addFill out.fillEdges := by
    intro a b hab
    rw [addFill_adj] at hab ⊢
    exact hab.imp_right fun hmem => ⟨hmem.1, List.map_subset _ hsub hmem.2⟩
  have heq := h.isMinimalTriangulation.eq_of_le ⟨le_addFill, hchordal⟩ hle
  have hne := h.isFill.nonEdge e he
  have hadj : (g.toSimple.addFill kept).Adj e.1 e.2 := by
    rw [heq, addFill_adj]
    exact Or.inr ⟨hne.1, List.mem_map.mpr ⟨e, he, rfl⟩⟩
  rcases addFill_adj.mp hadj with hG | ⟨-, hmem⟩
  · exact hne.2 hG
  · obtain ⟨p, hp, hpe⟩ := List.mem_map.mp hmem
    have hpeq : p = e := List.inj_on_of_nodup_map h.isFill.nodup (hsub hp) he hpe
    exact hek (hpeq ▸ hp)

/-- No edge is filled exactly when the graph is chordal. -/
theorem fillEdges_eq_nil_iff (h : McsMSpec g out) :
    out.fillEdges = [] ↔ g.toSimple.IsChordal := by
  constructor
  · intro hnil
    have hchordal := h.isMinimalTriangulation.chordal
    rwa [hnil, addFill_nil] at hchordal
  · intro hchordal
    by_contra hne
    obtain ⟨e, he⟩ := List.exists_mem_of_ne_nil _ hne
    apply h.not_isChordal_of_subset (List.nil_subset _) he List.not_mem_nil
    rwa [addFill_nil]

/-- The elimination game plays exactly the fill edges. -/
theorem mem_fillEdges_iff (h : McsMSpec g out) (e : Sym2 (Fin n)) :
    e ∈ out.fillEdges.map (fun p => s(p.1, p.2)) ↔
      e ∈ (g.toSimple.eliminationGraph out.eliminationOrder).edgeSet \ g.toSimple.edgeSet := by
  rw [h.isMinimalTriangulation.eliminationGraph_eq h.filling.isPerfectElimination]
  induction e using Sym2.ind with
  | _ a b =>
      rw [Set.mem_sdiff, mem_edgeSet, mem_edgeSet, addFill_adj]
      constructor
      · intro hmem
        obtain ⟨p, hp, hpe⟩ := List.mem_map.mp hmem
        have hp' := h.isFill.nonEdge p hp
        have hab : a ≠ b ∧ ¬g.toSimple.Adj a b := by
          rcases Sym2.eq_iff.mp hpe with ⟨rfl, rfl⟩ | ⟨rfl, rfl⟩
          · exact hp'
          · exact ⟨hp'.1.symm, fun hadj => hp'.2 hadj.symm⟩
        exact ⟨Or.inr ⟨hab.1, hmem⟩, hab.2⟩
      · rintro ⟨hadj | hmem, hnadj⟩
        · exact absurd hadj hnadj
        · exact hmem.2

end McsMSpec

/-- `McsM` ends with distinct non-edges that make the graph chordal and are all
needed, and with an order that is a perfect elimination order of the filled graph and
whose elimination game plays exactly these edges. -/
theorem mcsM_spec (hg : g.Valid) :
    ∃ out, mcsM g = some out ∧ g.toSimple.IsFill out.fillEdges ∧
      (g.toSimple.addFill out.fillEdges).IsChordal ∧
      (∀ kept, kept ⊆ out.fillEdges → (∃ e ∈ out.fillEdges, e ∉ kept) →
        ¬(g.toSimple.addFill kept).IsChordal) ∧
      (g.toSimple.addFill out.fillEdges).IsPerfectElimination out.eliminationOrder ∧
      (∀ e, e ∈ out.fillEdges.map (fun p => s(p.1, p.2)) ↔
        e ∈ (g.toSimple.eliminationGraph out.eliminationOrder).edgeSet \
          g.toSimple.edgeSet) ∧
      (out.fillEdges = [] ↔ g.toSimple.IsChordal) := by
  obtain ⟨out, hrun, h⟩ := mcsM_exists hg
  refine ⟨out, hrun, h.isFill, h.isMinimalTriangulation.chordal, ?_,
    h.filling.isPerfectElimination, h.mem_fillEdges_iff, h.fillEdges_eq_nil_iff⟩
  rintro kept hsub ⟨e, he, hek⟩
  exact h.not_isChordal_of_subset hsub he hek

/-- The cycle on six vertices. -/
def hexagon : Option (Graph 6) :=
  (Graph.empty 6).addEdges [(0, 1), (1, 2), (2, 3), (3, 4), (4, 5), (5, 0)]

theorem mcsM_spec_hexagon :
    ∃ g, hexagon = some g ∧ ∃ out, mcsM g = some out ∧ g.toSimple.IsFill out.fillEdges ∧
      (g.toSimple.addFill out.fillEdges).IsChordal := by
  obtain ⟨g, hadd, h⟩ := addEdges_spec (Graph.valid_empty 6)
    [(0, 1), (1, 2), (2, 3), (3, 4), (4, 5), (5, 0)] (by decide)
  obtain ⟨out, hrun, hfill, hchordal, -⟩ := mcsM_spec h.valid
  exact ⟨g, hadd, out, hrun, hfill, hchordal⟩

end Mcs

end Triangulator
