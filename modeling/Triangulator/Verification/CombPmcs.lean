import Triangulator.Verification.CombOneMore
import Triangulator.Verification.GraphUpdate
import Triangulator.Verification.McsTreewidth

/-!
# The combinatorial enumeration is sound and complete

Along a maximum cardinality order every prefix of a connected graph is
connected, and the enumeration keeps the list of the potential maximal cliques
of the prefix.
-/

namespace Triangulator

open SimpleGraph

variable {n : ℕ} {g : Graph n}

/-! ## Connected graphs with isolated vertices -/

theorem length_le_one_of_disjoint {α : Type*} {cs : List (List α)} {a : α}
    (hdisj : cs.Pairwise fun c d => ∀ v ∈ c, v ∉ d) (ha : ∀ c ∈ cs, a ∈ c) :
    cs.length ≤ 1 := by
  cases cs with
  | nil => exact Nat.zero_le 1
  | cons c cs =>
      cases cs with
      | nil => exact le_rfl
      | cons d cs =>
          exact absurd (ha d (by simp))
            ((List.pairwise_cons.mp hdisj).1 d (by simp) a (ha c (by simp)))

/-- A component with two vertices has an edge. -/
theorem exists_edge_of_length (c : List (Fin n)) (hnd : c.Nodup)
    (hconn : g.toSimple.IsConnectedSet (vset c)) (hlen : 1 < c.length) :
    ∃ u w, u ∈ c ∧ g.toSimple.Adj u w := by
  rcases c with _ | ⟨u, _ | ⟨v, l⟩⟩
  · simp at hlen
  · simp at hlen
  · have huv : u ≠ v := fun h => (List.nodup_cons.mp hnd).1 (by simp [h])
    obtain ⟨b, hb, w, -, -, hbw⟩ := (hconn u (by simp) v (by simp)).exists_exit
      (A := {u}) rfl (fun h => huv h.symm)
    obtain rfl : b = u := hb
    exact ⟨b, w, by simp, hbw⟩

/-- A graph with a single component is connected. -/
theorem isConnectedSet_of_components (hg : g.Valid) {c : List (Fin n)}
    (h : g.components [] = [c]) : g.toSimple.IsConnectedSet Set.univ := by
  have hcs := components_spec hg []
  have huniv : vset c = Set.univ := by
    ext v
    obtain ⟨d, hd, hvd⟩ := hcs.cover v (List.not_mem_nil (a := v))
    rw [h, List.mem_singleton] at hd
    exact iff_of_true (hd ▸ hvd) trivial
  exact huniv ▸ (hcs.isComponent c (by simp [h])).connected

/-- A graph with all edges inside a connected set passes
`IsConnectedOrIsolated`. -/
theorem isConnectedOrIsolated_of_support (hg : g.Valid) {A : Set (Fin n)}
    (hA : g.toSimple.IsConnectedSet A)
    (hsupp : ∀ u v, g.toSimple.Adj u v → u ∈ A) : g.isConnectedOrIsolated = true := by
  rw [Graph.isConnectedOrIsolated, decide_eq_true_iff, List.countP_eq_length_filter]
  have hcs := components_spec hg []
  -- A component with two vertices has an edge and so contains all of `A`.
  have hbig : ∀ c ∈ g.components [], 1 < c.length →
      (∃ u ∈ A, u ∈ c) ∧ ∀ a ∈ A, a ∈ c := by
    intro c hc hlen
    have hcomp := hcs.isComponent c hc
    obtain ⟨u, w, hu, huw⟩ := exists_edge_of_length c (hcs.nodup c hc) hcomp.connected hlen
    have huA := hsupp u w huw
    exact ⟨⟨u, huA, hu⟩, fun a ha => hcomp.subset_of_connected hA
      (fun _ _ h => List.not_mem_nil h) hu huA ha⟩
  have hfilter : ∀ c, c ∈ (g.components []).filter (fun c => decide (1 < c.length)) →
      c ∈ g.components [] ∧ 1 < c.length := fun c hc => by
    rwa [List.mem_filter, decide_eq_true_iff] at hc
  by_contra hlt
  have hne : (g.components []).filter (fun c => decide (1 < c.length)) ≠ [] := by
    intro hnil
    rw [hnil] at hlt
    exact hlt (Nat.zero_le 1)
  obtain ⟨c, hcmem⟩ := List.exists_mem_of_ne_nil _ hne
  obtain ⟨hc, hlen⟩ := hfilter c hcmem
  obtain ⟨⟨u, huA, -⟩, -⟩ := hbig c hc hlen
  exact hlt (length_le_one_of_disjoint (hcs.disjoint.sublist List.filter_sublist)
    fun d hd => (hbig d (hfilter d hd).1 (hfilter d hd).2).2 u huA)

/-- Without isolated vertices the test is one for connectedness. -/
theorem isConnectedSet_of_isConnectedOrIsolated (hg : g.Valid)
    (hsupp : ∀ v, v ∈ g.toSimple.support) (h : g.isConnectedOrIsolated = true) :
    g.toSimple.IsConnectedSet Set.univ := by
  have hcs := components_spec hg []
  -- Every component contains a vertex and one of its neighbors.
  have hlen : ∀ c ∈ g.components [], decide (1 < c.length) = true := by
    intro c hc
    have hcomp := hcs.isComponent c hc
    obtain ⟨v, hv⟩ := hcomp.nonempty
    obtain ⟨w, hvw⟩ := (mem_support _).mp (hsupp v)
    have hw : w ∈ c := hcomp.closed v hv w hvw List.not_mem_nil
    apply decide_eq_true
    by_contra hle
    obtain ⟨a, ha⟩ := List.length_eq_one_iff.mp
      (le_antisymm (Nat.le_of_not_lt hle) (List.length_pos_of_mem hv))
    rw [ha, List.mem_singleton] at hw
    have hva : v ∈ [a] := ha ▸ hv
    rw [List.mem_singleton] at hva
    exact hvw.ne (hva.trans hw.symm)
  rw [Graph.isConnectedOrIsolated, decide_eq_true_iff, List.countP_eq_length.mpr hlen] at h
  cases hcomponents : g.components [] with
  | nil =>
      intro u
      obtain ⟨c, hc, -⟩ := hcs.cover u (List.not_mem_nil (a := u))
      rw [hcomponents] at hc
      exact absurd hc List.not_mem_nil
  | cons c cs =>
      rw [hcomponents, List.length_cons] at h
      have hnil : cs = [] := List.length_eq_zero_iff.mp (by omega)
      exact isConnectedSet_of_components hg (hnil ▸ hcomponents)

namespace CombEnumerator

/-! ## The main loop -/

/-- The state after the vertices of `U` were added. -/
structure EnumInv (g : Graph n) (U : Set (Fin n)) (s : EnumState n) : Prop where
  valid : s.graph.Valid
  graph_eq : s.graph.toSimple = g.toSimple.within U
  connected : g.toSimple.IsConnectedSet U
  pmcs : IsOldList s.graph.toSimple U s.pmcs
  sorted : ∀ l ∈ s.pmcs, l.Pairwise (· < ·)
  nodup : s.pmcs.Nodup
  minseps : ∀ m ∈ s.minseps, s.graph.toSimple.IsMinimalSeparator (vset m)

theorem within_singleton (G : SimpleGraph (Fin n)) (x : Fin n) : G.within {x} = ⊥ := by
  refine eq_bot_iff.mpr fun u v huv => ?_
  obtain ⟨h, rfl, rfl⟩ := huv
  exact G.loopless.irrefl _ h

theorem enumInv_start (g : Graph n) (x : Fin n) :
    EnumInv g {x} ⟨Graph.empty n, [[x]], []⟩ := by
  have hset : vset [x] = {x} := by
    ext v
    simp
  have hpmc : ∀ P : Set (Fin n), P ⊆ {x} →
      ((⊥ : SimpleGraph (Fin n)).IsPmc P ↔ P = {x}) := by
    intro P hP
    have : Nonempty (Fin n) := ⟨x⟩
    constructor
    · intro h
      obtain ⟨y, hy⟩ := h.nonempty
      obtain rfl : y = x := hP hy
      exact hP.antisymm (by simpa using hy)
    · rintro rfl
      refine ⟨fun C _ heq => ?_, fun u hu v hv huv => absurd (hu.trans hv.symm) huv⟩
      have hx : x ∈ (⊥ : SimpleGraph (Fin n)).nbhd C := heq.superset rfl
      obtain ⟨-, c, -, hcx⟩ := hx
      exact hcx
  refine ⟨Graph.valid_empty n, by rw [Graph.toSimple_empty, within_singleton],
    isConnectedSet_singleton x, ⟨by simp, ?_, ?_⟩, by simp, by simp, by simp⟩
  · intro l hl
    rw [List.mem_singleton.mp hl, Graph.toSimple_empty, hset]
    exact ⟨(hpmc {x} subset_rfl).mpr rfl, subset_rfl⟩
  · intro P hP hsub
    rw [Graph.toSimple_empty] at hP
    exact ⟨[x], by simp, by rw [hset, (hpmc P hsub).mp hP]⟩

/-- Sorting the cliques and removing repetitions changes no vertex set. -/
theorem listed_sortAndDedup (ls : List (List (Fin n))) :
    listed (sortAndDedup (ls.map sort)) = listed ls := by
  ext S
  simp only [listed, Set.mem_ofPred_eq, mem_sortAndDedup, List.mem_map]
  constructor
  · rintro ⟨s, ⟨l, hl, rfl⟩, hS⟩
    exact ⟨l, hl, by rw [← hS, vset_sort]⟩
  · rintro ⟨l, hl, hS⟩
    exact ⟨sort l, ⟨l, hl, rfl⟩, by rw [vset_sort, hS]⟩

theorem IsOldList.sortAndDedup {G : SimpleGraph (Fin n)} {U : Set (Fin n)}
    {ls : List (List (Fin n))} (h : IsOldList G U ls) :
    IsOldList G U (sortAndDedup (ls.map sort)) ∧
      ∀ l ∈ Triangulator.sortAndDedup (ls.map sort), l.Pairwise (· < ·) := by
  have hmem : ∀ l ∈ Triangulator.sortAndDedup (ls.map sort), ∃ k ∈ ls, sort k = l :=
    fun l hl => List.mem_map.mp (mem_sortAndDedup.mp hl)
  have hsorted : ∀ l ∈ Triangulator.sortAndDedup (ls.map sort), l.Pairwise (· < ·) := by
    intro l hl
    obtain ⟨k, hk, rfl⟩ := hmem l hl
    exact sort_sortedLT (h.nodup k hk)
  refine ⟨⟨fun l hl => (hsorted l hl).imp ne_of_lt, fun l hl => ?_, fun P hP hsub => ?_⟩,
    hsorted⟩
  · obtain ⟨k, hk, rfl⟩ := hmem l hl
    rw [vset_sort]
    exact h.isPmc k hk
  · rw [listed_sortAndDedup]
    exact h.complete P hP hsub

/-- Adding a vertex with a neighbour among the vertices added before. -/
theorem EnumInv.step (hg : g.Valid) {U : Set (Fin n)} {s : EnumState n}
    (h : EnumInv g U s) {x y : Fin n} {ord : Fin n → ℕ} (hx : x ∉ U) (hy : y ∈ U)
    (hxy : g.toSimple.Adj x y) (hord : ∀ v, ord v < ord x ↔ v ∈ U) :
    ∃ s', addVertex g ord s x = some s' ∧ EnumInv g (insert x U) s' := by
  set F := ((g.adjList x).filter fun nx => decide (ord nx < ord x)).map fun nx => (nx, x)
    with hF
  have hmemF : ∀ p, p ∈ F ↔ g.toSimple.Adj x p.1 ∧ p.1 ∈ U ∧ p.2 = x := by
    rintro ⟨a, b⟩
    simp only [hF, List.mem_map, List.mem_filter, decide_eq_true_iff, hord,
      hg.mem_adjList_iff, Prod.mk.injEq]
    constructor
    · rintro ⟨c, ⟨hc, hcU⟩, rfl, rfl⟩
      exact ⟨hc, hcU, rfl⟩
    · rintro ⟨ha, haU, rfl⟩
      exact ⟨a, ⟨ha, haU⟩, rfl, rfl⟩
  obtain ⟨g', hadd, hg'⟩ := addEdges_spec h.valid F fun p hp => by
    rw [hmemF] at hp
    exact hp.2.2 ▸ hp.1.ne.symm
  -- The new graph is the graph induced by the vertices added so far and `x`.
  have hnew : g'.toSimple = g.toSimple.within (insert x U) := by
    rw [hg'.toSimple, h.graph_eq]
    ext u v
    rw [addFill_adj, within_adj, within_adj]
    simp only [List.mem_map, hmemF, Prod.exists, Sym2.eq_iff]
    constructor
    · rintro (⟨huv, hu, hv⟩ | ⟨-, a, b, ⟨hxa, haU, rfl⟩, ⟨rfl, rfl⟩ | ⟨rfl, rfl⟩⟩)
      · exact ⟨huv, Or.inr hu, Or.inr hv⟩
      · exact ⟨hxa.symm, Or.inr haU, Or.inl rfl⟩
      · exact ⟨hxa, Or.inl rfl, Or.inr haU⟩
    · rintro ⟨huv, rfl | hu, rfl | hv⟩
      · exact absurd rfl huv.ne
      · exact Or.inr ⟨huv.ne, v, u, ⟨huv, hv, rfl⟩, Or.inr ⟨rfl, rfl⟩⟩
      · exact Or.inr ⟨huv.ne, u, v, ⟨huv.symm, hu, rfl⟩, Or.inl ⟨rfl, rfl⟩⟩
      · exact Or.inl ⟨huv, hu, hv⟩
  have hconn : g.toSimple.IsConnectedSet (insert x U) := by
    rw [Set.insert_eq]
    exact (isConnectedSet_singleton x).union h.connected rfl hy (Or.inr hxy)
  have hadj' : g'.toSimple.Adj x y := by
    rw [hnew]
    exact ⟨hxy, Or.inl rfl, Or.inr hy⟩
  have hvertex : NewVertex g' s.graph.toSimple U x := by
    refine ⟨hg'.valid, fun u v => ?_, hx, fun u v huv => ?_, y, hadj'⟩
    · rw [hnew, h.graph_eq, within_adj, within_adj]
      constructor
      · rintro ⟨huv, hu, hv⟩
        exact ⟨⟨huv, Or.inr hu, Or.inr hv⟩, fun hux => hx (hux ▸ hu), fun hvx => hx (hvx ▸ hv)⟩
      · rintro ⟨⟨huv, hu, hv⟩, hux, hvx⟩
        exact ⟨huv, hu.resolve_left hux, hv.resolve_left hvx⟩
    · rw [hnew] at huv
      exact huv.2.1
  have hconn' : g'.isConnectedOrIsolated = true :=
    isConnectedOrIsolated_of_support hg'.valid
      (hconn.congr_graph fun a ha b hb hab => by
        rw [hnew]
        exact ⟨hab, ha, hb⟩)
      hvertex.support
  obtain ⟨newMinseps, hseps, hlist, -, hall⟩ := findMinSeps_spec hg'.valid ⟨x, y, hadj'⟩
  obtain ⟨ks, hmore, hks⟩ := hvertex.oneMoreVertex_spec h.pmcs h.minseps hlist hall
  refine ⟨⟨g', sortAndDedup (ks.map sort), newMinseps⟩, ?_, hg'.valid, hnew, hconn,
    hks.sortAndDedup.1, hks.sortAndDedup.2, sortAndDedup_nodup _,
    hlist.isMinimalSeparator⟩
  rw [addVertex, hadd]
  simp only [Option.bind_eq_bind, Option.bind_some, if_pos hconn', hseps, hmore]
  rfl

/-- The main loop along a reversed maximum cardinality order. -/
theorem addVertices_spec (hg : g.Valid) {order : List (Fin n)}
    (horder : g.toSimple.IsMcsOrder order) (hconn : g.toSimple.IsConnectedSet Set.univ)
    (rest pre : List (Fin n)) (hpre : pre ≠ []) (hsplit : order.reverse = pre ++ rest)
    (s : EnumState n) (h : EnumInv g (vset pre) s) :
    ∃ s', rest.foldlM (addVertex g (Mcs.permInverse (pre ++ rest))) s = some s' ∧
      EnumInv g Set.univ s' := by
  induction rest generalizing pre s with
  | nil =>
      refine ⟨s, rfl, ?_⟩
      have huniv : vset pre = Set.univ := by
        ext v
        have := List.mem_reverse.mpr (horder.mem v)
        rw [hsplit, List.append_nil] at this
        exact iff_of_true this trivial
      rwa [← huniv]
  | cons x rest ih =>
      have hnd : (pre ++ x :: rest).Nodup := hsplit ▸ List.nodup_reverse.mpr horder.nodup
      have hx : x ∉ vset pre := fun hmem => (List.nodup_append'.mp hnd).2.2 hmem (by simp)
      have hrev : order = rest.reverse ++ x :: pre.reverse := by
        rw [← List.reverse_reverse order, hsplit]
        simp
      obtain ⟨y, hy, hxy⟩ := horder.exists_adj hconn hrev (by simpa using hpre)
      have hall : ∀ v, v ∈ pre ++ x :: rest := fun v =>
        hsplit ▸ List.mem_reverse.mpr (horder.mem v)
      have hord : ∀ v, Mcs.permInverse (pre ++ x :: rest) v <
          Mcs.permInverse (pre ++ x :: rest) x ↔ v ∈ vset pre :=
        fun v => Mcs.permInverse_lt_iff hnd (hall v)
      obtain ⟨s₁, hstep, hs₁⟩ := h.step hg hx (List.mem_reverse.mp hy) hxy hord
      have hset : insert x (vset pre) = vset (pre ++ [x]) := by
        ext v
        simp [or_comm]
      rw [hset] at hs₁
      obtain ⟨s', hrun, hs'⟩ := ih (pre ++ [x]) (by simp) (by simp [hsplit]) s₁ hs₁
      refine ⟨s', ?_, hs'⟩
      rw [List.foldlM_cons, hstep]
      simpa using hrun

/-- The invariant of the main loop at its end. -/
theorem EnumInv.isPmc_iff {s : EnumState n} (hs : EnumInv g Set.univ s) {Ω : Set (Fin n)} :
    g.toSimple.IsPmc Ω ↔ ∃ l ∈ s.pmcs, vset l = Ω := by
  have hwithin : g.toSimple.within Set.univ = g.toSimple := by
    ext u v
    simp
  have heq := hs.graph_eq
  rw [hwithin] at heq
  constructor
  · intro hΩ
    exact hs.pmcs.complete Ω (heq ▸ hΩ) (Set.subset_univ Ω)
  · rintro ⟨l, hl, rfl⟩
    exact heq ▸ (hs.pmcs.isPmc l hl).1

/-- `Pmcs` fails no assertion on a connected graph. -/
theorem pmcs_enumInv (hg : g.Valid) (hn : 0 < n)
    (hconn : g.toSimple.IsConnectedSet Set.univ) :
    ∃ s : EnumState n, pmcs g = some s.pmcs ∧ EnumInv g Set.univ s := by
  obtain ⟨order, hmcs, horder⟩ := Mcs.mcs_spec hg
  rw [pmcs, if_neg (by omega), if_pos (isConnectedOrIsolated_of_support hg hconn
    fun _ _ _ => trivial), hmcs, Option.bind_eq_bind, Option.bind_some]
  cases hrev : order.reverse with
  | nil =>
      have := List.mem_reverse.mpr (horder.mem ⟨0, hn⟩)
      rw [hrev] at this
      cases this
  | cons x rest =>
      have hset : vset [x] = {x} := by
        ext v
        simp
      obtain ⟨s, hrun, hs⟩ := addVertices_spec hg horder hconn rest [x] (by simp) hrev
        ⟨Graph.empty n, [[x]], []⟩ (hset ▸ enumInv_start g x)
      dsimp only
      rw [show Mcs.permInverse (x :: rest) = Mcs.permInverse ([x] ++ rest) from rfl, hrun]
      exact ⟨s, rfl, hs⟩

/-- `Pmcs` fails no assertion on a connected graph and returns its potential
maximal cliques, each sorted and once. -/
theorem pmcs_spec (hg : g.Valid) (hn : 0 < n)
    (hconn : g.toSimple.IsConnectedSet Set.univ) :
    ∃ ls, pmcs g = some ls ∧ ls.Nodup ∧ (∀ l ∈ ls, l.Pairwise (· < ·)) ∧
      ∀ Ω, g.toSimple.IsPmc Ω ↔ ∃ l ∈ ls, vset l = Ω := by
  obtain ⟨s, hrun, hs⟩ := pmcs_enumInv hg hn hconn
  exact ⟨s.pmcs, hrun, hs.nodup, hs.sorted, fun _ => hs.isPmc_iff⟩

/-- The cycle on five vertices. -/
def cycle : Option (Graph 5) :=
  (Graph.empty 5).addEdges [(0, 1), (1, 2), (2, 3), (3, 4), (4, 0)]

theorem pmcs_spec_cycle :
    ∃ g, cycle = some g ∧ ∃ ls, pmcs g = some ls ∧ ls.Nodup ∧
      (∀ l ∈ ls, l.Pairwise (· < ·)) ∧
      ∀ Ω, g.toSimple.IsPmc Ω ↔ ∃ l ∈ ls, vset l = Ω := by
  obtain ⟨g, hadd, h⟩ := addEdges_spec (Graph.valid_empty 5)
    [(0, 1), (1, 2), (2, 3), (3, 4), (4, 0)] (by decide)
  have hcomp : cycle.map (fun g => g.components []) = some [[0, 1, 2, 3, 4]] := by decide
  rw [cycle, hadd, Option.map_some, Option.some_inj] at hcomp
  exact ⟨g, hadd, pmcs_spec h.valid (by decide)
    (isConnectedSet_of_components h.valid hcomp)⟩

end CombEnumerator

end Triangulator
