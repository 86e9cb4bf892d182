import Triangulator.Verification.CombSearch
import Triangulator.Verification.GraphUpdate

/-!
# The minimal separators listed by the enumeration

The growing list holds minimal separators only, and when its end is reached it
is closed under the generation of separators.
-/

namespace Triangulator

open SimpleGraph

variable {n : ℕ} {g : Graph n}

namespace CombEnumerator

variable {minseps : List (List (Fin n))}

/-- The listed vertex sets. -/
def listed (ls : List (List (Fin n))) : Set (Set (Fin n)) :=
  {S | ∃ s ∈ ls, vset s = S}

theorem listed_mono {ls ks : List (List (Fin n))} (h : ls <+: ks) :
    listed ls ⊆ listed ks := by
  rintro S ⟨s, hs, rfl⟩
  exact ⟨s, h.subset hs, rfl⟩

/-- A list of different minimal separators, each of them sorted. -/
structure IsSeparatorList (g : Graph n) (minseps : List (List (Fin n))) : Prop where
  nodup : minseps.Nodup
  sorted : ∀ s ∈ minseps, s.Pairwise (· < ·)
  isMinimalSeparator : ∀ s ∈ minseps, g.toSimple.IsMinimalSeparator (vset s)

/-- Different sorted vectors are different vertex sets, so there are at most
`2 ^ n` of them. -/
theorem IsSeparatorList.length_le (h : IsSeparatorList g minseps) :
    minseps.length ≤ 2 ^ n := by
  have hnd : (minseps.map List.toFinset).Nodup := by
    refine h.nodup.map_on fun s hs t ht heq => ?_
    refine eq_of_vset_eq (h.sorted s hs) (h.sorted t ht) ?_
    ext v
    rw [mem_vset, mem_vset, ← List.mem_toFinset, heq, List.mem_toFinset]
  have hle := hnd.length_le_card
  rwa [List.length_map, Fintype.card_finset, Fintype.card_fin] at hle

/-- What appending the neighbourhoods of the components outside a block, or a
sequence of such steps, does to the list. -/
structure Grown (g : Graph n) (minseps minseps' : List (List (Fin n))) : Prop where
  isList : IsSeparatorList g minseps'
  isPrefix : minseps <+: minseps'

theorem Grown.trans {ls ks ms : List (List (Fin n))} (h : Grown g ls ks)
    (h' : Grown g ks ms) : Grown g ls ms :=
  ⟨h'.isList, h.isPrefix.trans h'.isPrefix⟩

/-- Growing steps one after the other, each of which establishes its goal. -/
theorem foldl_grown {α : Type} (step : List (List (Fin n)) → α → List (List (Fin n)))
    (goal : α → Set (Set (Fin n)) → Prop)
    (hmono : ∀ a M M', M ⊆ M' → goal a M → goal a M') (as : List α)
    (hstep : ∀ a ∈ as, ∀ ls, IsSeparatorList g ls →
      Grown g ls (step ls a) ∧ goal a (listed (step ls a)))
    (h : IsSeparatorList g minseps) :
    Grown g minseps (as.foldl step minseps) ∧
      ∀ a ∈ as, goal a (listed (as.foldl step minseps)) := by
  induction as generalizing minseps with
  | nil => exact ⟨⟨h, List.prefix_rfl⟩, by simp⟩
  | cons a as ih =>
      obtain ⟨hgrown, hgoal⟩ := hstep a (by simp) minseps h
      obtain ⟨hgrown', hgoals⟩ :=
        ih (fun b hb => hstep b (by simp [hb])) hgrown.isList
      rw [List.foldl_cons]
      refine ⟨hgrown.trans hgrown', List.forall_mem_cons.mpr ⟨?_, hgoals⟩⟩
      exact hmono a _ _ (listed_mono hgrown'.isPrefix) hgoal

/-- The neighbourhoods of all components outside `block` get listed. -/
theorem addSeparators_spec (hg : g.Valid) (block : List (Fin n))
    (hblock : ∀ C, g.toSimple.IsComponent (vset block) C →
      g.toSimple.IsMinimalSeparator (g.toSimple.nbhd C))
    (h : IsSeparatorList g minseps) :
    Grown g minseps (addSeparators g minseps block) ∧
      ∀ C, g.toSimple.IsComponent (vset block) C →
        g.toSimple.nbhd C ∈ listed (addSeparators g minseps block) := by
  have hcs := components_spec hg block
  have hstep : ∀ c ∈ g.components block, ∀ ls, IsSeparatorList g ls →
      Grown g ls (if sort (g.neighbors c) ∈ ls then ls
        else ls ++ [sort (g.neighbors c)]) ∧
      g.toSimple.nbhd (vset c) ∈ listed (if sort (g.neighbors c) ∈ ls then ls
        else ls ++ [sort (g.neighbors c)]) := by
    intro c hc ls hls
    have hset : vset (sort (g.neighbors c)) = g.toSimple.nbhd (vset c) := by
      rw [vset_sort, vset_neighbors hg]
    have hsorted : (sort (g.neighbors c)).Pairwise (· < ·) :=
      sort_sortedLT ((neighbors_sorted g c).imp ne_of_lt)
    by_cases hmem : sort (g.neighbors c) ∈ ls
    · rw [if_pos hmem]
      exact ⟨⟨hls, List.prefix_rfl⟩, _, hmem, hset⟩
    · rw [if_neg hmem]
      refine ⟨⟨⟨?_, ?_, ?_⟩, List.prefix_append _ _⟩, _, by simp, hset⟩
      · exact hls.nodup.append (List.nodup_singleton _) (by simpa using hmem)
      · intro s hs
        rcases List.mem_append.mp hs with hs | hs
        · exact hls.sorted s hs
        · exact List.mem_singleton.mp hs ▸ hsorted
      · intro s hs
        rcases List.mem_append.mp hs with hs | hs
        · exact hls.isMinimalSeparator s hs
        · rw [List.mem_singleton.mp hs, hset]
          exact hblock _ (hcs.isComponent c hc)
  obtain ⟨hgrown, hgoals⟩ := foldl_grown
    (fun minseps c =>
      let nbs := sort (g.neighbors c)
      if nbs ∈ minseps then minseps else minseps ++ [nbs])
    (fun c M => g.toSimple.nbhd (vset c) ∈ M) (fun c M M' hM hc => hM hc)
    (g.components block) hstep h
  refine ⟨hgrown, fun C hC => ?_⟩
  obtain ⟨c, hc, rfl⟩ := hcs.exists_eq hC
  exact hgoals c hc

/-- The separators generated from `S` are listed. -/
def DeleteClosed (g : Graph n) (S : Set (Fin n)) (M : Set (Set (Fin n))) : Prop :=
  ∀ x ∈ S, ∀ C, g.toSimple.IsComponent (S ∪ g.toSimple.neighborSet x) C →
    g.toSimple.nbhd C ∈ M

theorem vset_adjList (hg : g.Valid) (x : Fin n) :
    vset (g.adjList x) = g.toSimple.neighborSet x := by
  ext v
  exact hg.mem_adjList_iff

/-- One round over a listed separator. -/
theorem processSeparator_spec (hg : g.Valid) {minsep : List (Fin n)}
    (hsep : g.toSimple.IsMinimalSeparator (vset minsep)) (h : IsSeparatorList g minseps) :
    Grown g minseps (minsep.foldl
      (fun minseps x => addSeparators g minseps (minsep ++ g.adjList x)) minseps) ∧
    DeleteClosed g (vset minsep) (listed (minsep.foldl
      (fun minseps x => addSeparators g minseps (minsep ++ g.adjList x)) minseps)) :=
  foldl_grown _ (fun x M => ∀ C, g.toSimple.IsComponent
      (vset minsep ∪ g.toSimple.neighborSet x) C → g.toSimple.nbhd C ∈ M)
    (fun _ _ _ hM hx C hC => hM (hx C hC)) minsep
    (fun x hx ls hls => by
      have hblock : vset (minsep ++ g.adjList x) =
          vset minsep ∪ g.toSimple.neighborSet x := by
        rw [vset_append, vset_adjList hg]
      have hadd := addSeparators_spec hg (minsep ++ g.adjList x)
        (fun C hC => hsep.of_delete hx (hblock ▸ hC)) hls
      rwa [hblock] at hadd)
    h

/-- The loop over the growing list ends with a list closed under generation. -/
theorem findMinSepsLoop_spec (hg : g.Valid) (fuel i : ℕ) (h : IsSeparatorList g minseps)
    (hdone : ∀ j < i, ∀ s, minseps[j]? = some s →
      DeleteClosed g (vset s) (listed minseps))
    (hfuel : 2 ^ n ≤ fuel + i) :
    ∃ ls, findMinSepsLoop g (-1) fuel i minseps = some ls ∧ Grown g minseps ls ∧
      ∀ s ∈ ls, DeleteClosed g (vset s) (listed ls) := by
  induction fuel generalizing i minseps with
  | zero =>
      have hlen := h.length_le
      have hnone : minseps[i]? = none := List.getElem?_eq_none (by omega)
      refine ⟨minseps, by rw [findMinSepsLoop, hnone], ⟨h, List.prefix_rfl⟩, ?_⟩
      intro s hs
      obtain ⟨j, hj⟩ := List.mem_iff_getElem?.mp hs
      have := (List.getElem?_eq_some_iff.mp hj).1
      exact hdone j (by omega) s hj
  | succ fuel ih =>
      rw [findMinSepsLoop]
      cases hget : minseps[i]? with
      | none =>
          refine ⟨minseps, rfl, ⟨h, List.prefix_rfl⟩, fun s hs => ?_⟩
          obtain ⟨j, hj⟩ := List.mem_iff_getElem?.mp hs
          have := (List.getElem?_eq_some_iff.mp hj).1
          have := List.getElem?_eq_none_iff.mp hget
          exact hdone j (by omega) s hj
      | some minsep =>
          dsimp only
          rw [if_neg (by simp)]
          have hmem := List.mem_of_getElem? hget
          obtain ⟨hgrown, hclosed⟩ := processSeparator_spec hg
            (h.isMinimalSeparator minsep hmem) h
          set minseps' := minsep.foldl
            (fun minseps x => addSeparators g minseps (minsep ++ g.adjList x)) minseps
          have hlisted := listed_mono hgrown.isPrefix
          obtain ⟨ls, hloop, hgrown', hall⟩ := ih (i + 1) hgrown.isList
            (fun j hj s hs => by
              rcases Nat.lt_succ_iff_lt_or_eq.mp hj with hj | rfl
              · have hlt : j < minseps.length := by
                  have := (List.getElem?_eq_some_iff.mp hget).1
                  omega
                obtain ⟨t, ht⟩ := hgrown.isPrefix
                rw [← ht, List.getElem?_append_left hlt] at hs
                exact fun x hx C hC => hlisted (hdone j hj s hs x hx C hC)
              · obtain ⟨t, ht⟩ := hgrown.isPrefix
                rw [← ht, List.getElem?_append_left
                  (List.getElem?_eq_some_iff.mp hget).1, hget, Option.some_inj] at hs
                exact hs ▸ hclosed)
            (by omega)
          exact ⟨ls, hloop, hgrown.trans hgrown', hall⟩

/-- A run that stops at the bound lists a part of what the run to the end lists, and
all of it unless it reaches the bound. -/
theorem findMinSepsLoop_bounded (hg : g.Valid) (ub : ℤ) (fuel i : ℕ)
    (h : IsSeparatorList g minseps) {ls : List (List (Fin n))}
    (hls : findMinSepsLoop g (-1) fuel i minseps = some ls) :
    minseps <+: ls ∧ ∃ ms, findMinSepsLoop g ub fuel i minseps = some ms ∧ ms <+: ls ∧
      (ms = ls ∨ ub ≤ ms.length) := by
  induction fuel generalizing i minseps with
  | zero =>
      rw [findMinSepsLoop] at hls ⊢
      cases hget : minseps[i]? with
      | none =>
          rw [hget] at hls
          obtain rfl := Option.some_inj.mp hls
          exact ⟨List.prefix_rfl, minseps, rfl, List.prefix_rfl, Or.inl rfl⟩
      | some minsep =>
          rw [hget] at hls
          dsimp only at hls
          rw [if_neg (by simp)] at hls
          cases hls
  | succ fuel ih =>
      rw [findMinSepsLoop] at hls ⊢
      cases hget : minseps[i]? with
      | none =>
          rw [hget] at hls
          obtain rfl := Option.some_inj.mp hls
          exact ⟨List.prefix_rfl, minseps, rfl, List.prefix_rfl, Or.inl rfl⟩
      | some minsep =>
          rw [hget] at hls
          dsimp only at hls ⊢
          rw [if_neg (by simp)] at hls
          have hmem := List.mem_of_getElem? hget
          obtain ⟨hgrown, -⟩ := processSeparator_spec hg (h.isMinimalSeparator minsep hmem) h
          obtain ⟨hpre, ms, hrun, hms, hcases⟩ := ih (i + 1) hgrown.isList hls
          refine ⟨hgrown.isPrefix.trans hpre, ?_⟩
          by_cases hstop : ub ≠ -1 ∧ ub ≤ minseps.length
          · rw [if_pos hstop]
            exact ⟨minseps, rfl, hgrown.isPrefix.trans hpre, Or.inr hstop.2⟩
          · rw [if_neg hstop]
            exact ⟨ms, hrun, hms, hcases⟩

/-- The separators close to one vertex. -/
theorem startSeparators_spec (hg : g.Valid) :
    let start := (List.finRange n).foldl
      (fun minseps i =>
        if (g.adjList i).isEmpty then minseps
        else addSeparators g minseps (g.adjList i ++ [i]))
      []
    IsSeparatorList g start ∧ ∀ v u, g.toSimple.Adj v u → ∀ C,
      g.toSimple.IsComponent (g.toSimple.closedNbhd v) C →
        g.toSimple.nbhd C ∈ listed start := by
  have hstep : ∀ v ∈ List.finRange n, ∀ ls, IsSeparatorList g ls →
      Grown g ls (if (g.adjList v).isEmpty then ls
        else addSeparators g ls (g.adjList v ++ [v])) ∧
      ∀ u, g.toSimple.Adj v u → ∀ C,
        g.toSimple.IsComponent (g.toSimple.closedNbhd v) C →
          g.toSimple.nbhd C ∈ listed (if (g.adjList v).isEmpty then ls
            else addSeparators g ls (g.adjList v ++ [v])) := by
    intro v _ ls hls
    by_cases hv : (g.adjList v).isEmpty = true
    · rw [if_pos hv]
      refine ⟨⟨hls, List.prefix_rfl⟩, fun u hvu => ?_⟩
      have hmem := hg.mem_adjList_iff.mpr hvu
      rw [List.isEmpty_iff.mp hv] at hmem
      cases hmem
    · rw [if_neg hv]
      have hblock : vset (g.adjList v ++ [v]) = g.toSimple.closedNbhd v := by
        ext u
        rw [mem_vset, List.mem_append, List.mem_singleton, hg.mem_adjList_iff,
          mem_closedNbhd, or_comm]
      have hadd := addSeparators_spec hg (g.adjList v ++ [v])
        (fun C hC => isMinimalSeparator_of_closedNbhd (hblock ▸ hC)) hls
      rw [hblock] at hadd
      exact ⟨hadd.1, fun _ _ => hadd.2⟩
  obtain ⟨hgrown, hgoals⟩ := foldl_grown
    (fun minseps i =>
      if (g.adjList i).isEmpty then minseps
      else addSeparators g minseps (g.adjList i ++ [i]))
    (fun v M => ∀ u, g.toSimple.Adj v u → ∀ C,
      g.toSimple.IsComponent (g.toSimple.closedNbhd v) C → g.toSimple.nbhd C ∈ M)
    (fun _ _ _ hM hv u hvu C hC => hM (hv u hvu C hC)) (List.finRange n) hstep
    (show IsSeparatorList g [] from ⟨List.nodup_nil, by simp, by simp⟩)
  exact ⟨hgrown.isList, fun v => hgoals v (List.mem_finRange v)⟩

/-- `FindMinSeps` lists exactly the minimal separators of a graph with an edge, in
increasing order. -/
theorem findMinSeps_spec (hg : g.Valid) (hedge : ∃ u v, g.toSimple.Adj u v) :
    ∃ ls, findMinSeps g (-1) = some ls ∧ IsSeparatorList g ls ∧
      ls.Pairwise (· < ·) ∧ ∀ S, g.toSimple.IsMinimalSeparator S → S ∈ listed ls := by
  obtain ⟨u, v, huv⟩ := hedge
  obtain ⟨hstart, hclose⟩ := startSeparators_spec hg
  obtain ⟨ls, hloop, hgrown, hdelete⟩ := findMinSepsLoop_spec hg (2 ^ n) 0 hstart
    (fun j hj => absurd hj (Nat.not_lt_zero j)) (by omega)
  have hclosed : g.toSimple.SeparatorClosed (listed ls) := by
    refine ⟨fun a b hab C hC => listed_mono hgrown.isPrefix (hclose a b hab C hC), ?_⟩
    rintro S ⟨s, hs, rfl⟩
    exact hdelete s hs
  have hmem : ∀ s, s ∈ sort ls ↔ s ∈ ls := fun s => mem_sort
  refine ⟨sort ls, ?_, ⟨sort_nodup hgrown.isList.nodup, ?_, ?_⟩,
    sort_sortedLT hgrown.isList.nodup, ?_⟩
  · rw [findMinSeps]
    rw [hloop]
    rfl
  · exact fun s hs => hgrown.isList.sorted s ((hmem s).mp hs)
  · exact fun s hs => hgrown.isList.isMinimalSeparator s ((hmem s).mp hs)
  · intro S hS
    obtain ⟨s, hs, rfl⟩ := hclosed.mem huv hS
    exact ⟨s, (hmem s).mpr hs, rfl⟩

/-- A run with a bound returns some of the minimal separators, at least as many as the
bound when there are so many and otherwise all of them. -/
theorem findMinSeps_bounded (hg : g.Valid) (ub : ℤ) {ls : List (List (Fin n))}
    (hls : findMinSeps g (-1) = some ls) :
    ∃ ms, findMinSeps g ub = some ms ∧ ms.Pairwise (· < ·) ∧ ms ⊆ ls ∧
      (ub ≤ ls.length → ub ≤ ms.length) ∧ (ls.length < ub → ms = ls) := by
  obtain ⟨hstart, -⟩ := startSeparators_spec hg
  rw [findMinSeps, Option.bind_eq_bind, Option.bind_eq_some_iff] at hls
  obtain ⟨as, has, hls⟩ := hls
  obtain rfl := Option.some_inj.mp hls
  obtain ⟨-, ms, hrun, hms, hcases⟩ := findMinSepsLoop_bounded hg ub (2 ^ n) 0 hstart has
  have hnodup : as.Nodup := by
    obtain ⟨ls, hloop, hgrown, -⟩ := findMinSepsLoop_spec hg (2 ^ n) 0 hstart
      (fun j hj => absurd hj (Nat.not_lt_zero j)) (by simp)
    rw [has, Option.some_inj] at hloop
    exact hloop ▸ hgrown.isList.nodup
  have hlen : ∀ l : List (List (Fin n)), (sort l).length = l.length :=
    fun l => (sort_perm l).length_eq
  refine ⟨sort ms, ?_, sort_sortedLT (hnodup.sublist hms.sublist), ?_, ?_, ?_⟩
  · rw [findMinSeps, Option.bind_eq_bind, hrun]
    rfl
  · intro s hs
    exact mem_sort.mpr (hms.subset (mem_sort.mp hs))
  · intro hle
    rw [hlen] at hle ⊢
    rcases hcases with rfl | hreached
    · exact hle
    · exact hreached
  · intro hlt
    rcases hcases with rfl | hreached
    · rfl
    · rw [hlen] at hlt
      have hmsle : (ms.length : ℤ) ≤ as.length := by exact_mod_cast hms.length_le
      exact absurd (hreached.trans hmsle) (not_le.mpr hlt)

/-- `FindMinSeps` returns exactly the minimal separators, and with a bound a part of them
that falls short of the bound only when it is all of them. -/
theorem findMinSeps_exact (hg : g.Valid) (hedge : ∃ u v, g.toSimple.Adj u v) :
    ∃ ls, findMinSeps g (-1) = some ls ∧ ls.Pairwise (· < ·) ∧
      (∀ s ∈ ls, s.Pairwise (· < ·)) ∧
      (∀ S, g.toSimple.IsMinimalSeparator S ↔ ∃ s ∈ ls, vset s = S) ∧
      ([] ∈ ls ↔ ¬g.toSimple.Connected) ∧
      ∀ ub : ℤ, 1 ≤ ub → ∃ ms, findMinSeps g ub = some ms ∧ ms.Pairwise (· < ·) ∧ ms ⊆ ls ∧
        (ub ≤ ls.length → ub ≤ ms.length) ∧ (ls.length < ub → ms = ls) := by
  obtain ⟨ls, hls, hlist, hsorted, hall⟩ := findMinSeps_spec hg hedge
  have hiff : ∀ S, g.toSimple.IsMinimalSeparator S ↔ ∃ s ∈ ls, vset s = S := by
    intro S
    constructor
    · exact hall S
    · rintro ⟨s, hs, rfl⟩
      exact hlist.isMinimalSeparator s hs
  refine ⟨ls, hls, hsorted, hlist.sorted, hiff, ?_, fun ub _ => findMinSeps_bounded hg ub hls⟩
  have : Nonempty (Fin n) := ⟨hedge.choose⟩
  rw [← isMinimalSeparator_empty_iff, hiff]
  constructor
  · intro hnil
    exact ⟨[], hnil, Set.eq_empty_iff_forall_notMem.mpr fun v => List.not_mem_nil⟩
  · rintro ⟨s, hs, hempty⟩
    have hnil : s = [] := List.eq_nil_iff_forall_not_mem.mpr fun v hv =>
      Set.eq_empty_iff_forall_notMem.mp hempty v hv
    exact hnil ▸ hs

/-- Two paths and an isolated vertex. -/
def twoPaths : Option (Graph 7) :=
  (Graph.empty 7).addEdges [(0, 1), (1, 2), (3, 4), (4, 5)]

theorem findMinSeps_exact_twoPaths :
    ∃ g, twoPaths = some g ∧ ∃ ls, findMinSeps g (-1) = some ls ∧ ls.Pairwise (· < ·) ∧
      (∀ s ∈ ls, s.Pairwise (· < ·)) ∧
      (∀ S, g.toSimple.IsMinimalSeparator S ↔ ∃ s ∈ ls, vset s = S) ∧
      ([] ∈ ls ↔ ¬g.toSimple.Connected) := by
  obtain ⟨g, hadd, h⟩ := addEdges_spec (Graph.valid_empty 7)
    [(0, 1), (1, 2), (3, 4), (4, 5)] (by decide)
  have hedge : ∃ u v, g.toSimple.Adj u v := by
    refine ⟨0, 1, ?_⟩
    rw [h.toSimple, addFill_adj]
    exact Or.inr (by decide)
  obtain ⟨ls, hls, hsorted, hvecs, hiff, hempty, -⟩ := findMinSeps_exact h.valid hedge
  exact ⟨g, hadd, ls, hls, hsorted, hvecs, hiff, hempty⟩

end CombEnumerator

end Triangulator
