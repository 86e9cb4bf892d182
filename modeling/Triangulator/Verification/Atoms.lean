import Triangulator.GraphTheory.AtomPieces
import Triangulator.Verification.GraphBuild
import Triangulator.Verification.McsMOrder
import Triangulator.Verification.McsTreewidth

/-!
# `Atoms` decomposes a graph by clique separators

The bitmap `block` marks what has been cut off so far.  Exactly one component is
left at the end, so the assertion holds, and when nothing was cut off the graph has
no clique separator.
-/

namespace Triangulator

open SimpleGraph

variable {n : ℕ} {g filled : Graph n} {out : Mcs.McsMOutput n}

theorem exists_of_forall₂ {α β : Type*} {r : α → β → Prop} {l : List α} {l' : List β}
    (h : List.Forall₂ r l l') {a : α} (ha : a ∈ l) : ∃ b ∈ l', r a b := by
  induction h with
  | nil => exact absurd ha List.not_mem_nil
  | @cons x y l l' hxy _ ih =>
      rcases List.mem_cons.mp ha with rfl | ha
      · exact ⟨y, List.mem_cons_self, hxy⟩
      · obtain ⟨b, hb, hr⟩ := ih ha
        exact ⟨b, List.mem_cons_of_mem y hb, hr⟩

theorem forall₂_imp_of_mem {α β : Type*} {R S : α → β → Prop} {l : List α} {l' : List β}
    (h : List.Forall₂ R l l') (himp : ∀ a ∈ l, ∀ b, R a b → S a b) : List.Forall₂ S l l' := by
  induction h with
  | nil => exact List.Forall₂.nil
  | cons hab _ ih =>
      exact List.Forall₂.cons (himp _ List.mem_cons_self _ hab)
        (ih fun a ha => himp a (List.mem_cons_of_mem _ ha))

/-- The values of a loop that always returns one. -/
theorem exists_mapM {α β : Type*} {f : α → Option β} {r : α → β → Prop} {l : List α}
    (h : ∀ a ∈ l, ∃ b, f a = some b ∧ r a b) :
    ∃ bs, l.mapM f = some bs ∧ List.Forall₂ r l bs := by
  induction l with
  | nil => exact ⟨[], rfl, List.Forall₂.nil⟩
  | cons a l ih =>
      obtain ⟨b, hb, hab⟩ := h a List.mem_cons_self
      obtain ⟨bs, hbs, hall⟩ := ih fun a ha => h a (List.mem_cons_of_mem _ ha)
      refine ⟨b :: bs, ?_, List.Forall₂.cons hab hall⟩
      rw [List.mapM_cons, hb, hbs]
      rfl

/-- A running maximum is below `k` when all its terms are. -/
theorem foldl_max_le_iff {α β : Type*} [LinearOrder β] (f : α → β) (l : List α) (b k : β) :
    l.foldl (fun m a => max m (f a)) b ≤ k ↔ b ≤ k ∧ ∀ a ∈ l, f a ≤ k := by
  induction l generalizing b with
  | nil => simp
  | cons a l ih =>
      rw [List.foldl_cons, ih, max_le_iff, List.forall_mem_cons, and_assoc]

namespace Mcs

/-- The atoms are the graphs inside the vertex lists. -/
def AreInduced (g : Graph n) (vss : List (List (Fin n))) (atoms : List SomeGraph) : Prop :=
  List.Forall₂ (fun vs a => inducedGraph g vs = some a) vss atoms

theorem AreInduced.concat {vss : List (List (Fin n))} {as : List SomeGraph}
    {vs : List (Fin n)} {a : SomeGraph} (h : AreInduced g vss as)
    (ha : inducedGraph g vs = some a) : AreInduced g (vss ++ [vs]) (as ++ [a]) :=
  List.rel_append h (List.Forall₂.cons ha List.Forall₂.nil)

/-- The state of the loop after the vertices of `pre` have been examined. -/
structure AtomsInv (g : Graph n) (H : SimpleGraph (Fin n)) (order pre : List (Fin n))
    (s : AtomsState n) (B : Set (Fin n)) (vss : List (List (Fin n))) : Prop where
  cut : g.toSimple.CutInv H order pre B (vss.map vset)
  pieces : g.toSimple.PieceInv H order pre B (vss.map vset)
  rm_iff : ∀ v, s.rm v = true ↔ v ∈ pre
  block_iff : ∀ v, s.block v = true ↔ v ∈ B
  atoms : AreInduced g vss s.atoms

/-- One round of the loop over the elimination order. -/
theorem AtomsInv.step (hg : g.Valid) {H : SimpleGraph (Fin n)} (hfilled : filled.Valid)
    (hH : filled.toSimple = H) {order pre post : List (Fin n)}
    (h : g.toSimple.IsFillingOrder H order) {x : Fin n} {bit : Bool}
    (hsplit : order = pre ++ x :: post) (hbit : bit = true ↔ H.IsFlagged x post)
    {s : AtomsState n} {B : Set (Fin n)} {vss : List (List (Fin n))}
    (hI : AtomsInv g H order pre s B vss) :
    ∃ s' B' vss', atomsRound g filled s (x, bit) = some s' ∧
      AtomsInv g H order (pre ++ [x]) s' B' vss' := by
  set candClique := (filled.adjList x).filter fun nx => !s.rm nx with hcand
  have hnd : candClique.Nodup := (hfilled.nodup_adjList x).filter _
  have hset : vset candClique = H.later post x := by
    ext v
    rw [mem_vset, hcand, List.mem_filter, hfilled.mem_adjList_iff, hH, Bool.not_eq_true',
      ← Bool.not_eq_true, hI.rm_iff]
    have hv := h.mem v
    have hndo := h.nodup
    rw [hsplit, List.mem_append, List.mem_cons] at hv
    rw [hsplit, List.nodup_append] at hndo
    constructor
    · rintro ⟨hadj, hpre⟩
      exact ⟨hadj, (hv.resolve_left hpre).resolve_left hadj.ne'⟩
    · rintro ⟨hadj, hpost⟩
      exact ⟨hadj, fun hpre => hndo.2.2 v hpre v (List.mem_cons_of_mem x hpost) rfl⟩
  have hcut : (bit && g.isClique candClique) = true ↔ g.toSimple.IsCut H x post := by
    rw [Bool.and_eq_true, hbit, hg.isClique_iff hnd, hset]
    exact ⟨fun h => ⟨h.1, h.2⟩, fun h => ⟨h.flagged, h.clique⟩⟩
  have hrm : ∀ v, Function.update s.rm x true v = true ↔ v ∈ pre ++ [x] := by
    intro v
    rw [List.mem_append, List.mem_singleton, ← hI.rm_iff]
    by_cases hv : v = x
    · simp [hv]
    · simp [hv]
  by_cases hx : g.toSimple.IsCut H x post
  · -- The component of `x` is searched with the clique marked for the moment.
    have hxS : x ∉ H.later post x := notMem_later
    have hxB : x ∉ B := fun hB => (h.notMem_of_split hsplit).1 (hI.cut.subset x hB)
    have hmark : ∀ v, mark s.block candClique v = false ↔ v ∉ B ∪ H.later post x := by
      intro v
      rw [mark_apply, Bool.or_eq_false_iff, decide_eq_false_iff_not, ← Bool.not_eq_true,
        hI.block_iff, ← mem_vset, hset, Set.mem_union, not_or]
    have hunmarked : unmarked (mark s.block candClique) = (B ∪ H.later post x)ᶜ := by
      ext v
      exact hmark v
    have hdfs := findComponentAndMark_spec hg
      ((hmark x).mpr fun hmem => hmem.elim hxB hxS)
    set r := g.findComponentAndMark x (mark s.block candClique) with hr
    have hcomp : vset r.2 = g.toSimple.componentOf (B ∪ H.later post x) x := by
      ext v
      rw [mem_vset, hdfs.mem_iff, hunmarked]
      exact Iff.rfl
    obtain ⟨a, hrun, -⟩ := inducedGraph_spec hg (r.2 ++ candClique)
    refine ⟨⟨Function.update s.rm x true,
      candClique.foldl (fun b y => Function.update b y false) r.1, s.atoms ++ [a]⟩,
      B ∪ g.toSimple.componentOf (B ∪ H.later post x) x, vss ++ [r.2 ++ candClique],
      ?_, ?_, ?_, hrm, ?_, hI.atoms.concat hrun⟩
    · rw [atomsRound]
      dsimp only
      rw [← hcand, hcut.mpr hx, if_pos rfl, ← hr, hrun]
      rfl
    · rw [List.map_append, List.map_singleton, vset_append, hcomp, hset]
      exact hI.cut.cut h hsplit hx
    · rw [List.map_append, List.map_singleton, vset_append, hcomp, hset]
      exact PieceInv.cut h hI.cut hI.pieces hsplit hx
    · intro v
      dsimp only
      rw [unmark_apply, Bool.and_eq_true, decide_eq_true_eq, hdfs.marked, mark_apply,
        Bool.or_eq_true, Bool.or_eq_true, decide_eq_true_eq, decide_eq_true_eq, hI.block_iff,
        ← mem_vset (l := r.2), hcomp, ← mem_vset (l := candClique), hset, Set.mem_union]
      have hBS : v ∈ B → v ∉ H.later post x := by
        intro hB hS
        have hndo := h.nodup
        rw [hsplit, List.nodup_append] at hndo
        exact hndo.2.2 v (hI.cut.subset v hB) v (List.mem_cons_of_mem x hS.2) rfl
      have hCS : v ∈ g.toSimple.componentOf (B ∪ H.later post x) x → v ∉ H.later post x := by
        intro hC hS
        exact (isComponent_componentOf fun hmem => hmem.elim hxB hxS).notMem v hC (Or.inr hS)
      tauto
  · refine ⟨{ s with rm := Function.update s.rm x true }, B, vss, ?_,
      hI.cut.skip h.nodup hsplit hx, hI.pieces.skip h.nodup hsplit hx, hrm, hI.block_iff,
      hI.atoms⟩
    rw [atomsRound]
    dsimp only
    rw [← hcand, if_neg fun htrue => hx (hcut.mp htrue)]

/-- The loop over the elimination order. -/
theorem atomsLoop_spec (hg : g.Valid) {H : SimpleGraph (Fin n)} (hfilled : filled.Valid)
    (hH : filled.toSimple = H) {order : List (Fin n)} (h : g.toSimple.IsFillingOrder H order)
    (post pre : List (Fin n)) (bits : List Bool) (hsplit : order = pre ++ post)
    (hbits : H.AreFlags post bits) {s : AtomsState n} {B : Set (Fin n)}
    {vss : List (List (Fin n))} (hI : AtomsInv g H order pre s B vss) :
    ∃ s' B' vss', (post.zip bits).foldlM (atomsRound g filled) s = some s' ∧
      AtomsInv g H order order s' B' vss' := by
  induction post generalizing pre bits s B vss with
  | nil =>
      rw [List.append_nil] at hsplit
      subst hsplit
      exact ⟨s, B, vss, rfl, hI⟩
  | cons x post ih =>
      cases bits with
      | nil => exact hbits.elim
      | cons bit bits =>
          obtain ⟨hbit, hrest⟩ := hbits
          obtain ⟨s₁, B₁, vss₁, hstep, hI₁⟩ := hI.step hg hfilled hH h hsplit hbit
          have hsplit' : order = (pre ++ [x]) ++ post := by
            rw [hsplit, List.append_assoc, List.singleton_append]
          obtain ⟨s₂, B₂, vss₂, hrun, hI₂⟩ := ih (pre ++ [x]) bits hsplit' hrest hI₁
          refine ⟨s₂, B₂, vss₂, ?_, hI₂⟩
          rw [List.zip_cons_cons, List.foldlM_cons, hstep]
          exact hrun

/-! ## The component that is left -/

theorem restRound_all (block : Fin n → Bool) (hall : ∀ v, block v = true)
    (as : List SomeGraph) (found : ℕ) (l : List (Fin n)) :
    l.foldlM (restRound g) (block, as, found) = some (block, as, found) := by
  induction l with
  | nil => rfl
  | cons x l ih =>
      rw [List.foldlM_cons, restRound, if_pos (hall x)]
      exact ih

/-- A connected rest is found by the first search. -/
theorem restLoop_spec (hg : g.Valid) {block : Fin n → Bool}
    (hconn : g.toSimple.IsConnectedSet (unmarked block)) (as : List SomeGraph)
    (l : List (Fin n)) (hl : ∃ v ∈ l, block v = false) :
    ∃ block' a vs, l.foldlM (restRound g) (block, as, 0) = some (block', as ++ [a], 1) ∧
      inducedGraph g vs = some a ∧ vset vs = unmarked block := by
  induction l with
  | nil =>
      obtain ⟨v, hv, -⟩ := hl
      exact absurd hv List.not_mem_nil
  | cons x l ih =>
      by_cases hx : block x = true
      · obtain ⟨v, hv, hvb⟩ := hl
        have hvl : v ∈ l := by
          rcases List.mem_cons.mp hv with rfl | hv
          · rw [hx] at hvb
            exact absurd hvb.symm Bool.false_ne_true
          · exact hv
        obtain ⟨block', a, vs, hrun, h⟩ := ih ⟨v, hvl, hvb⟩
        refine ⟨block', a, vs, ?_, h⟩
        rw [List.foldlM_cons, restRound, if_pos hx]
        exact hrun
      · have hxb : block x = false := by simpa using hx
        have hdfs := findComponentAndMark_spec hg hxb
        set r := g.findComponentAndMark x block with hr
        have hset : vset r.2 = unmarked block := by
          ext v
          rw [mem_vset, hdfs.mem_iff]
          exact ⟨fun h => h.mem hxb, fun hv => hconn x hxb v hv⟩
        obtain ⟨a, hrun, -⟩ := inducedGraph_spec hg r.2
        refine ⟨r.1, a, r.2, ?_, hrun, hset⟩
        have hall : ∀ v, r.1 v = true := by
          intro v
          rw [hdfs.marked, Bool.or_eq_true, decide_eq_true_eq, ← mem_vset, hset, mem_unmarked]
          cases block v <;> simp
        rw [List.foldlM_cons, restRound, if_neg hx]
        dsimp only
        rw [← hr, hrun]
        exact restRound_all r.1 hall _ _ l

/-- What `Atoms` returns: the induced graphs of a decomposition by clique separators,
with a single piece only when there is no clique separator. -/
structure AtomsSpec (g : Graph n) (vss : List (List (Fin n))) (as : List SomeGraph) :
    Prop where
  decomposition : g.toSimple.IsCliqueDecomposition Set.univ (vss.map vset)
  induced : AreInduced g vss as
  inseparable : as.length = 1 → g.toSimple.IsInseparable Set.univ
  areAtoms : g.toSimple.AreAtoms (vss.map vset)

theorem AreInduced.length_eq {vss : List (List (Fin n))} {as : List SomeGraph}
    (h : AreInduced g vss as) : vss.length = as.length :=
  List.Forall₂.length_eq h

theorem atoms_spec (hg : g.Valid) (hn : 0 < n) (h : McsMSpec g out) :
    ∃ vss as, atoms g out = some as ∧ AtomsSpec g vss as := by
  obtain ⟨filled, hadd, hfilled⟩ := addEdges_spec hg out.fillEdges fun p hp =>
    (h.isFill.nonEdge p hp).1
  have hinit : AtomsInv g (g.toSimple.addFill out.fillEdges) out.eliminationOrder []
      ⟨fun _ => false, fun _ => false, []⟩ ∅ [] :=
    ⟨CutInv.init _ _ _, PieceInv.init _ _ _, by simp, by simp, List.Forall₂.nil⟩
  obtain ⟨s, B, vss, hloop, hI⟩ := atomsLoop_spec hg hfilled.valid hfilled.toSimple h.filling
    out.eliminationOrder [] out.isMaximalCliquePoint rfl h.flags hinit
  have hne : out.eliminationOrder ≠ [] := by
    intro hnil
    have hmem := h.filling.mem ⟨0, hn⟩
    rw [hnil] at hmem
    exact absurd hmem List.not_mem_nil
  obtain ⟨⟨z, hz⟩, hconn⟩ := hI.cut.rest_connected h.filling hne
  have hunmarked : unmarked s.block = Bᶜ := by
    ext v
    rw [mem_unmarked, ← Bool.not_eq_true, hI.block_iff]
    exact Iff.rfl
  have hzb : z ∈ unmarked s.block := hunmarked ▸ hz
  obtain ⟨block', a, vs, hrest, ha, hvs⟩ := restLoop_spec hg (hunmarked ▸ hconn) s.atoms
    (List.finRange n) ⟨z, List.mem_finRange z, hzb⟩
  have hmap : (vss ++ [vs]).map vset = vss.map vset ++ [Bᶜ] := by
    rw [List.map_append, List.map_singleton, hvs, hunmarked]
  have hdecomp : g.toSimple.IsCliqueDecomposition Set.univ (vss.map vset ++ [Bᶜ]) :=
    hI.cut.decomposes _ (IsCliqueDecomposition.rest ⟨z, hz⟩ hconn)
  refine ⟨vss ++ [vs], s.atoms ++ [a], ?_, hmap ▸ hdecomp, hI.atoms.concat ha, ?_, ?_⟩
  · rw [atoms, hadd, Option.bind_eq_bind, Option.bind_some, hloop, Option.bind_eq_bind,
      Option.bind_some, hrest]
    rfl
  · intro hlen
    have hnil : vss.map vset = [] := by
      rw [List.length_append, List.length_singleton, ← hI.atoms.length_eq] at hlen
      rw [List.map_eq_nil_iff, List.length_eq_zero_iff.symm]
      exact Nat.succ_injective hlen
    exact h.filling.isInseparable fun p x q hpq =>
      hI.cut.no_cut hnil p x q hpq (h.filling.mem x)
  · rw [hmap]
    refine ⟨?_, ?_, hI.pieces.antichain_rest, fun A hA =>
      hdecomp.exists_subset hA (Set.subset_univ A)⟩
    · intro A hA
      rcases List.mem_append.mp hA with hA | hA
      · obtain ⟨v, hv, -⟩ := hI.pieces.meets A hA
        exact ⟨v, hv⟩
      · rw [List.mem_singleton] at hA
        exact hA ▸ ⟨z, hz⟩
    · intro A hA
      rcases List.mem_append.mp hA with hA | hA
      · exact hI.pieces.inseparable A hA
      · rw [List.mem_singleton] at hA
        exact hA ▸ PieceInv.inseparable_rest h.filling hI.pieces

end Mcs

/-! ## The atoms -/

/-- The vertices of the original graph that a returned graph has. -/
def vertexSet (n : ℕ) (a : Mcs.SomeGraph) : Set (Fin n) :=
  {v | (v : ℕ) ∈ a.2.vertexMap.values}

/-- A set with two vertices that is connected and that no clique separates. -/
structure IsNonseparable (G : SimpleGraph (Fin n)) (A : Set (Fin n)) : Prop where
  two_le : 2 ≤ A.ncard
  connected : G.IsConnectedSet A
  inseparable : G.IsInseparable A

section Induced

variable {k : ℕ} {a : Graph k} {ψ : Fin k ↪ Fin n} {A : Set (Fin n)}

theorem InducedOn.vertexSet_eq (ha : InducedOn g A a ψ) :
    vertexSet n ⟨k, a⟩ = Set.range ψ := by
  ext v
  constructor
  · intro hv
    obtain ⟨j, hj⟩ := ha.valid.exists_mapBack hv
    exact ⟨j, Fin.ext ((ha.label j).trans hj)⟩
  · rintro ⟨j, rfl⟩
    change (ψ j : ℕ) ∈ a.vertexMap.values
    rw [ha.label j]
    exact ha.valid.mapBack_mem j

theorem InducedOn.adj_iff (ha : InducedOn g A a ψ) (i j : Fin k) :
    a.toSimple.Adj i j ↔ g.toSimple.Adj (ψ i) (ψ j) ∧ ψ i ∈ A ∧ ψ j ∈ A := by
  have hmap : (a.toSimple.map ψ).Adj (ψ i) (ψ j) ↔ a.toSimple.Adj i j := map_adj_apply
  rw [← hmap, ha.map_eq, within_adj]

/-- The vertices of an induced graph are those with a neighbour in the set. -/
theorem InducedOn.mem_range_iff (ha : InducedOn g A a ψ) (v : Fin n) :
    v ∈ Set.range ψ ↔ v ∈ A ∧ ∃ w ∈ A, g.toSimple.Adj v w := by
  constructor
  · rintro ⟨j, rfl⟩
    obtain ⟨i, hij⟩ := ha.support j
    obtain ⟨hadj, hj, hi⟩ := (ha.adj_iff j i).mp hij
    exact ⟨hj, ψ i, hi, hadj⟩
  · rintro ⟨hv, w, hw, hadj⟩
    have hmap : (a.toSimple.map ψ).Adj v w := by
      rw [ha.map_eq, within_adj]
      exact ⟨hadj, hv, hw⟩
    obtain ⟨j, -, -, hj, -⟩ := (map_adj ψ _ _ _).mp hmap
    exact ⟨j, hj⟩

/-- The induced graph of a connected set with two vertices has all its vertices. -/
theorem InducedOn.range_eq (ha : InducedOn g A a ψ) (hA : g.toSimple.IsConnectedSet A)
    (h2 : 2 ≤ A.ncard) : Set.range ψ = A := by
  ext v
  rw [ha.mem_range_iff]
  refine and_iff_left_of_imp fun hv => ?_
  obtain ⟨w, hw, hwv⟩ := Set.exists_ne_of_one_lt_ncard h2 v
  obtain ⟨u, rfl, x, -, hx, hux⟩ := (hA v hv w hw).exists_exit (A := {v}) rfl hwv
  exact ⟨x, hx, hux⟩

/-- The induced graph has vertices exactly when the set has two. -/
theorem InducedOn.pos_iff (ha : InducedOn g A a ψ) (hA : g.toSimple.IsConnectedSet A) :
    0 < k ↔ 2 ≤ A.ncard := by
  constructor
  · intro hk
    obtain ⟨i, hi⟩ := ha.support ⟨0, hk⟩
    obtain ⟨hadj, h0A, hiA⟩ := (ha.adj_iff _ i).mp hi
    exact (Set.one_lt_ncard (Set.toFinite A)).mpr ⟨_, h0A, _, hiA, hadj.ne⟩
  · intro h2
    have hne : A.Nonempty := (Set.ncard_pos (Set.toFinite A)).mp (by omega)
    rw [← ha.range_eq hA h2] at hne
    obtain ⟨_, j, rfl⟩ := hne
    exact j.pos

end Induced

namespace Mcs

/-- How a returned graph belongs to a piece. -/
structure IsPieceGraph (g : Graph n) (A : Set (Fin n)) (a : SomeGraph) : Prop where
  pos_iff : 0 < a.1 ↔ 2 ≤ A.ncard
  vertexSet_eq : 0 < a.1 → vertexSet n a = A
  induced : ∃ ψ : Fin a.1 ↪ Fin n, (∀ j, (ψ j : ℕ) = a.2.mapBack j) ∧
    ∀ i j, a.2.toSimple.Adj i j ↔ g.toSimple.Adj (ψ i) (ψ j)

theorem isPieceGraph_of_inducedGraph (hg : g.Valid) {vs : List (Fin n)} {a : SomeGraph}
    (ha : inducedGraph g vs = some a) (hconn : g.toSimple.IsConnectedSet (vset vs)) :
    IsPieceGraph g (vset vs) a := by
  obtain ⟨b, hb, ψ, hind⟩ := inducedGraph_spec hg vs
  rw [ha, Option.some.injEq] at hb
  subst hb
  have hpos := hind.pos_iff hconn
  refine ⟨hpos, ?_, ψ, hind.label, ?_⟩
  · intro hk
    exact hind.vertexSet_eq.trans (hind.range_eq hconn (hpos.mp hk))
  · intro i j
    rw [hind.adj_iff i j]
    refine and_iff_left_of_imp fun _ => ?_
    exact ⟨((hind.mem_range_iff _).mp ⟨i, rfl⟩).1, ((hind.mem_range_iff _).mp ⟨j, rfl⟩).1⟩

open Classical in
/-- The nonempty graphs and the pieces with two vertices, in the same order. -/
theorem map_filter_eq {L : List (Set (Fin n))} {as : List SomeGraph}
    (h : List.Forall₂ (IsPieceGraph g) L as) :
    ((as.filter fun a => 0 < a.1).map (vertexSet n) = L.filter fun A => 2 ≤ A.ncard) ∧
      as.countP (fun a => a.1 = 0) = (L.filter fun A => ¬2 ≤ A.ncard).length := by
  induction h with
  | nil => exact ⟨rfl, rfl⟩
  | @cons A a L as ha _ ih =>
      by_cases hpos : 0 < a.1
      · have h2 := ha.pos_iff.mp hpos
        rw [List.filter_cons_of_pos (by simpa using hpos),
          List.filter_cons_of_pos (by simpa only [decide_eq_true_eq] using h2), List.map_cons, ih.1,
          ha.vertexSet_eq hpos, List.countP_cons_of_neg (by simpa using hpos.ne'),
          List.filter_cons_of_neg (by simpa only [decide_eq_true_eq, not_not] using h2)]
        exact ⟨rfl, ih.2⟩
      · have h2 : ¬2 ≤ A.ncard := fun h2 => hpos (ha.pos_iff.mpr h2)
        rw [List.filter_cons_of_neg (by simpa using hpos),
          List.filter_cons_of_neg (by simpa only [decide_eq_true_eq] using h2),
          List.countP_cons_of_pos (by simpa using hpos),
          List.filter_cons_of_pos (by simpa only [decide_eq_true_eq] using h2), List.length_cons, ih.2]
        exact ⟨ih.1, rfl⟩

open Classical in
/-- There are as many pieces with a single vertex as isolated vertices. -/
theorem length_filter_eq {G : SimpleGraph (Fin n)} {L : List (Set (Fin n))}
    (hL : G.AreAtoms L) :
    (L.filter fun A => ¬2 ≤ A.ncard).length = {v | ∀ w, ¬G.Adj v w}.ncard := by
  have hset : {A | A ∈ L.filter fun A => ¬2 ≤ A.ncard} =
      (fun v => ({v} : Set (Fin n))) '' {v | ∀ w, ¬G.Adj v w} := by
    ext A
    rw [Set.mem_ofPred_eq, List.mem_filter, decide_eq_true_eq]
    constructor
    · rintro ⟨hA, h2⟩
      have hpos := (Set.ncard_pos (Set.toFinite A)).mpr (hL.nonempty A hA)
      obtain ⟨v, rfl⟩ := Set.ncard_eq_one.mp (by omega : A.ncard = 1)
      exact ⟨v, hL.singleton_mem_iff.mp hA, rfl⟩
    · rintro ⟨v, hv, rfl⟩
      refine ⟨hL.singleton_mem_iff.mpr hv, ?_⟩
      dsimp only
      rw [Set.ncard_singleton]
      decide
  rw [← Set.ncard_image_of_injective _ Set.singleton_injective, ← hset,
    ← List.toFinset_card_of_nodup (hL.nodup.filter _), ← Set.ncard_coe_finset]
  congr 1
  ext A
  rw [Finset.mem_coe, List.mem_toFinset]
  exact Iff.rfl

/-- `Atoms` returns an empty graph for each isolated vertex, and otherwise the induced
graphs of the maximal connected sets of at least two vertices that no clique separates, each
once. -/
theorem atoms_exact (hg : g.Valid) (hn : 0 < n) :
    ∃ out as, mcsM g = some out ∧ atoms g out = some as ∧
      as.countP (fun a => a.1 = 0) = {v | ∀ w, ¬g.toSimple.Adj v w}.ncard ∧
      ((as.filter fun a => 0 < a.1).map (vertexSet n)).Nodup ∧
      (∀ A, (∃ a ∈ as, 0 < a.1 ∧ vertexSet n a = A) ↔
        Maximal (IsNonseparable g.toSimple) A) ∧
      ∀ a ∈ as, ∃ ψ : Fin a.1 ↪ Fin n, (∀ j, (ψ j : ℕ) = a.2.mapBack j) ∧
        ∀ i j, a.2.toSimple.Adj i j ↔ g.toSimple.Adj (ψ i) (ψ j) := by
  classical
  obtain ⟨out, hrun, hout⟩ := mcsM_exists hg
  obtain ⟨vss, as, hatoms, hspec⟩ := atoms_spec hg hn hout
  have hL := hspec.areAtoms
  have hgraphs : List.Forall₂ (IsPieceGraph g) (vss.map vset) as := by
    rw [List.forall₂_map_left_iff]
    apply forall₂_imp_of_mem hspec.induced
    intro vs hvs a ha
    have hinsep := hL.inseparable (vset vs) (List.mem_map_of_mem hvs)
    exact isPieceGraph_of_inducedGraph hg ha hinsep.isConnectedSet
  obtain ⟨hfilter, hcount⟩ := map_filter_eq hgraphs
  refine ⟨out, as, hrun, hatoms, hcount.trans (length_filter_eq hL), ?_, ?_, ?_⟩
  · rw [hfilter]
    exact hL.nodup.filter _
  · intro A
    have hpred : IsNonseparable g.toSimple = fun A => 2 ≤ A.ncard ∧
        g.toSimple.IsConnectedSet A ∧ g.toSimple.IsInseparable A :=
      funext fun A => propext ⟨fun h => ⟨h.two_le, h.connected, h.inseparable⟩,
        fun h => ⟨h.1, h.2.1, h.2.2⟩⟩
    rw [hpred, ← hL.mem_iff_maximal (Q := fun A => 2 ≤ A.ncard)
      fun A A' h2 hsub => h2.trans (Set.ncard_le_ncard hsub (Set.toFinite A'))]
    have hmem : A ∈ (as.filter fun a => 0 < a.1).map (vertexSet n) ↔
        A ∈ vss.map vset ∧ 2 ≤ A.ncard := by
      rw [hfilter, List.mem_filter, decide_eq_true_eq]
    rw [← hmem, List.mem_map]
    refine exists_congr fun a => ?_
    rw [List.mem_filter, decide_eq_true_eq, and_assoc]
  · intro a ha
    obtain ⟨A, -, hA⟩ := exists_of_forall₂ hgraphs.flip ha
    exact hA.induced

theorem atoms_exact_hexagon :
    ∃ g, hexagon = some g ∧ ∃ out as, mcsM g = some out ∧ atoms g out = some as ∧
      ∀ A, (∃ a ∈ as, 0 < a.1 ∧ vertexSet 6 a = A) ↔
        Maximal (IsNonseparable g.toSimple) A := by
  obtain ⟨g, hadd, h⟩ := addEdges_spec (Graph.valid_empty 6)
    [(0, 1), (1, 2), (2, 3), (3, 4), (4, 5), (5, 0)] (by decide)
  obtain ⟨out, as, hrun, hatoms, -, -, hmax, -⟩ := atoms_exact h.valid (by decide)
  exact ⟨g, hadd, out, as, hrun, hatoms, hmax⟩

end Mcs

end Triangulator
