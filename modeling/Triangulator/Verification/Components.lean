import Triangulator.Model.Graph
import Triangulator.GraphTheory.Block

/-!
# Components and neighbourhoods computed by the graph class

The depth-first search marks exactly the vertices reached through unmarked
vertices, so `components` lists the components of the graph without the
separator and `neighbors` their neighbourhoods.
-/

namespace Triangulator

open SimpleGraph

variable {n : ℕ} {g : Graph n}

/-- The elements of a vertex vector. -/
def vset {α : Type*} (l : List α) : Set α :=
  {v | v ∈ l}

@[simp] theorem mem_vset {α : Type*} {l : List α} {v : α} : v ∈ vset l ↔ v ∈ l :=
  Iff.rfl

@[simp] theorem vset_append {α : Type*} (l k : List α) :
    vset (l ++ k) = vset l ∪ vset k := by
  ext v
  simp

theorem vset_eq_iff {α : Type*} {l k : List α} :
    vset l = vset k ↔ ∀ v, v ∈ l ↔ v ∈ k :=
  Set.ext_iff

theorem ncard_vset {α : Type*} {l : List α} (h : l.Nodup) :
    (vset l).ncard = l.length := by
  classical
  have : vset l = (l.toFinset : Set α) := by
    ext v
    simp
  rw [this, Set.ncard_coe_finset, List.toFinset_card_of_nodup h]

/-- The three views of the edges agree and the labels are strictly
increasing. -/
structure Graph.Valid (g : Graph n) : Prop where
  symm : ∀ v u, g.adjMat v u = g.adjMat u v
  irrefl : ∀ v, g.adjMat v v = false
  mem_adjList : ∀ v u, u ∈ g.adjList v ↔ g.adjMat v u = true
  nodup_adjList : ∀ v, (g.adjList v).Nodup
  m_eq : ∑ v, (g.adjList v).length = 2 * g.m
  labels_length : g.vertexMap.values.length = n
  labels_sorted : g.vertexMap.values.Pairwise (· < ·)

/-- The simple graph of the adjacency matrix. -/
def Graph.toSimple (g : Graph n) : SimpleGraph (Fin n) :=
  SimpleGraph.fromRel fun u v => g.adjMat u v = true

namespace Graph.Valid

theorem adj_iff (hg : g.Valid) {u v : Fin n} :
    g.toSimple.Adj u v ↔ g.adjMat u v = true := by
  rw [Graph.toSimple, SimpleGraph.fromRel_adj, hg.symm v u, or_self]
  refine and_iff_right_of_imp fun h huv => ?_
  rw [huv, hg.irrefl] at h
  cases h

theorem mem_adjList_iff (hg : g.Valid) {u v : Fin n} :
    u ∈ g.adjList v ↔ g.toSimple.Adj v u := by
  rw [hg.mem_adjList, hg.adj_iff]

end Graph.Valid

theorem mark_apply (bits : Fin n → Bool) (l : List (Fin n)) (v : Fin n) :
    mark bits l v = (bits v || decide (v ∈ l)) := by
  induction l generalizing bits with
  | nil => simp [mark]
  | cons a l ih =>
      rw [mark, List.foldl_cons, ← mark, ih]
      by_cases hva : v = a
      · subst hva
        simp
      · simp [hva]

theorem mark_false_apply (l : List (Fin n)) (v : Fin n) :
    mark (fun _ => false) l v = decide (v ∈ l) := by
  simp [mark_apply]

theorem mark_false_eq_false_iff {l : List (Fin n)} {v : Fin n} :
    mark (fun _ => false) l v = false ↔ v ∉ l := by
  simp [mark_false_apply]

/-! ## Depth-first search -/

/-- The vertices not yet marked. -/
def unmarked (block : Fin n → Bool) : Set (Fin n) :=
  {v | block v = false}

@[simp] theorem mem_unmarked {block : Fin n → Bool} {v : Fin n} :
    v ∈ unmarked block ↔ block v = false :=
  Iff.rfl

/-- What one search from `v` adds to the component and to the bitmap. -/
structure DfsResult (g : Graph n) (block : Fin n → Bool) (v : Fin n)
    (l : List (Fin n)) (block' : Fin n → Bool) : Prop where
  nodup : l.Nodup
  mem_iff : ∀ w, w ∈ l ↔ g.toSimple.ReachIn (unmarked block) v w
  marked : ∀ w, block' w = (block w || decide (w ∈ l))

/-- The state of a search from `v` while the neighbours of `v` are scanned. -/
structure DfsPartial (g : Graph n) (block : Fin n → Bool) (v : Fin n)
    (l : List (Fin n)) (block' : Fin n → Bool) : Prop where
  nodup : l.Nodup
  root : v ∈ l
  reach : ∀ w ∈ l, block w = false ∧ g.toSimple.ReachIn (unmarked block) v w
  closed : ∀ w ∈ l, w ≠ v → ∀ x, g.toSimple.Adj w x → block x = false → x ∈ l
  marked : ∀ w, block' w = (block w || decide (w ∈ l))

theorem DfsPartial.append {block block' block'' : Fin n → Bool} {v w : Fin n}
    {l l' : List (Fin n)} (h : DfsPartial g block v l block')
    (hvw : g.toSimple.Adj v w) (hw : block' w = false)
    (h' : DfsResult g block' w l' block'') :
    DfsPartial g block v (l ++ l') block'' := by
  have hsub : ∀ x, block' x = false → block x = false ∧ x ∉ l := by
    intro x hx
    simpa [h.marked x] using hx
  have hmem : ∀ x ∈ l', block' x = false := fun x hx =>
    ReachIn.mem (X := unmarked block') ((h'.mem_iff x).mp hx) hw
  refine ⟨?_, by simp [h.root], ?_, ?_, ?_⟩
  · rw [List.nodup_append']
    refine ⟨h.nodup, h'.nodup, fun x hx hx' => ?_⟩
    exact (hsub x (hmem x hx')).2 hx
  · intro x hx
    rcases List.mem_append.mp hx with hx | hx
    · exact h.reach x hx
    · refine ⟨(hsub x (hmem x hx)).1, ?_⟩
      refine ReachIn.head hvw (hsub w hw).1 ?_
      exact ((h'.mem_iff x).mp hx).mono_right fun y hy => (hsub y hy).1
  · intro x hx hxv y hxy hy
    rcases List.mem_append.mp hx with hx | hx
    · exact List.mem_append_left _ (h.closed x hx hxv y hxy hy)
    · by_cases hyl : y ∈ l
      · exact List.mem_append_left _ hyl
      · refine List.mem_append_right _ ((h'.mem_iff y).mpr ?_)
        refine ReachIn.tail ((h'.mem_iff x).mp hx) hxy ?_
        simp [h.marked y, hy, hyl]
  · intro x
    rw [h'.marked x, h.marked x]
    simp [Bool.or_assoc]

/-- With enough depth, the search from an unmarked vertex collects exactly the
vertices reached through unmarked vertices. -/
theorem dfs_spec (hg : g.Valid) (fuel : ℕ) (block : Fin n → Bool)
    (comp : List (Fin n)) (v : Fin n) (hv : block v = false)
    (hfuel : (unmarked block).ncard ≤ fuel) :
    ∃ l, (g.dfs fuel v (block, comp)).2 = comp ++ l ∧
      DfsResult g block v l (g.dfs fuel v (block, comp)).1 := by
  induction fuel generalizing block comp v with
  | zero =>
      rw [Nat.le_zero, Set.ncard_eq_zero] at hfuel
      exact absurd (show v ∈ unmarked block from hv) (by simp [hfuel])
  | succ fuel ih =>
      have scan : ∀ (ns : List (Fin n)) (l : List (Fin n)) (b : Fin n → Bool),
          (∀ w ∈ ns, g.toSimple.Adj v w) → DfsPartial g block v l b →
          ∃ l', (ns.foldl (fun s nv => if s.1 nv then s else g.dfs fuel nv s)
              (b, comp ++ l)).2 = comp ++ l' ∧
            DfsPartial g block v l' (ns.foldl
              (fun s nv => if s.1 nv then s else g.dfs fuel nv s)
              (b, comp ++ l)).1 ∧ (∀ w ∈ l, w ∈ l') ∧
            ∀ w ∈ ns, block w = false → w ∈ l' := by
        intro ns
        induction ns with
        | nil => exact fun l b _ h => ⟨l, rfl, h, fun _ hw => hw, by simp⟩
        | cons w ns ihns =>
            intro l b hns h
            have hadj := hns w (by simp)
            have hns' : ∀ x ∈ ns, g.toSimple.Adj v x :=
              fun x hx => hns x (by simp [hx])
            rw [List.foldl_cons]
            by_cases hb : b w = true
            · rw [if_pos hb]
              obtain ⟨l', hl', hpart, hmono, hscan⟩ := ihns l b hns' h
              refine ⟨l', hl', hpart, hmono, fun x hx hxb => ?_⟩
              rcases List.mem_cons.mp hx with rfl | hx
              · rw [h.marked x, hxb] at hb
                exact hmono x (by simpa using hb)
              · exact hscan x hx hxb
            · rw [if_neg hb]
              rw [Bool.not_eq_true] at hb
              have hcard : (unmarked b).ncard ≤ fuel := by
                have hlt : (unmarked b).ncard < (unmarked block).ncard := by
                  refine Set.ncard_lt_ncard ⟨fun x hx => ?_, fun hsub => ?_⟩
                    (Set.toFinite _)
                  · rw [mem_unmarked, h.marked x] at hx
                    simp_all
                  · have := hsub (show v ∈ unmarked block from hv)
                    rw [mem_unmarked, h.marked v] at this
                    simp [h.root] at this
                omega
              obtain ⟨k, hk, hres⟩ := ih b (comp ++ l) w hb hcard
              have hpart := h.append hadj hb hres
              obtain ⟨l', hl', hpart', hmono, hscan⟩ :=
                ihns (l ++ k) (g.dfs fuel w (b, comp ++ l)).1 hns' hpart
              have hpair : g.dfs fuel w (b, comp ++ l) =
                  ((g.dfs fuel w (b, comp ++ l)).1, comp ++ (l ++ k)) := by
                rw [← List.append_assoc, ← hk]
              rw [hpair]
              refine ⟨l', hl', hpart', fun x hx => hmono x (by simp [hx]), ?_⟩
              intro x hx hxb
              rcases List.mem_cons.mp hx with rfl | hx
              · refine hmono x (List.mem_append_right _ ?_)
                exact (hres.mem_iff x).mpr (ReachIn.refl x)
              · exact hscan x hx hxb
      have hstart : DfsPartial g block v [v] (Function.update block v true) := by
        refine ⟨by simp, by simp, ?_, ?_, ?_⟩
        · intro w hw
          obtain rfl := List.mem_singleton.mp hw
          exact ⟨hv, ReachIn.refl w⟩
        · intro w hw hwv
          exact absurd (List.mem_singleton.mp hw) hwv
        · intro w
          by_cases hwv : w = v
          · subst hwv
            simp
          · simp [hwv]
      obtain ⟨l, hl, hpart, -, hscan⟩ := scan (g.adjList v) [v]
        (Function.update block v true) (fun w hw => hg.mem_adjList_iff.mp hw) hstart
      refine ⟨l, hl, hpart.nodup, fun w => ⟨fun hw => (hpart.reach w hw).2, ?_⟩,
        hpart.marked⟩
      intro hw
      refine hw.mem_of_closed (A := vset l) hpart.root fun a ha b hb hab => ?_
      by_cases hav : a = v
      · subst hav
        exact hscan b (hg.mem_adjList_iff.mpr hab) hb
      · exact hpart.closed a ha hav b hab hb

theorem findComponentAndMark_spec (hg : g.Valid) {block : Fin n → Bool}
    {v : Fin n} (hv : block v = false) :
    DfsResult g block v (g.findComponentAndMark v block).2
      (g.findComponentAndMark v block).1 := by
  have hcard : (unmarked block).ncard ≤ n := by
    refine (Set.ncard_le_ncard (Set.subset_univ _) (Set.toFinite _)).trans ?_
    simp [Set.ncard_univ]
  obtain ⟨l, hl, hres⟩ := dfs_spec hg n block [] v hv hcard
  rw [List.nil_append] at hl
  rw [Graph.findComponentAndMark, hl]
  exact hres

/-! ## Components -/

/-- The bitmap marks `S` and, outside `S`, only whole components. -/
structure MarksComponents (g : Graph n) (S : Set (Fin n)) (block : Fin n → Bool) :
    Prop where
  sep : ∀ s ∈ S, block s = true
  closed : ∀ a b, block a = false → g.toSimple.Adj a b → b ∉ S → block b = false

theorem marksComponents_mark (l : List (Fin n)) :
    MarksComponents g (vset l) (mark (fun _ => false) l) where
  sep := fun s hs => by simpa [mark_false_apply] using hs
  closed := fun _ _ _ _ hb => mark_false_eq_false_iff.mpr hb

/-- A search over such a bitmap finds the component of its root and marks it. -/
theorem DfsResult.isComponent {S : Set (Fin n)} {block block' : Fin n → Bool}
    {v : Fin n} {l : List (Fin n)} (h : DfsResult g block v l block')
    (hS : MarksComponents g S block) (hv : block v = false) :
    g.toSimple.IsComponent S (vset l) ∧ MarksComponents g S block' := by
  have hvS : v ∉ S := fun hvS => by simp [hS.sep v hvS] at hv
  have heq : vset l = g.toSimple.componentOf S v := by
    ext w
    rw [mem_vset, h.mem_iff]
    constructor
    · refine fun hw => hw.mono_right fun x hx hxS => ?_
      simp [hS.sep x hxS] at hx
    · intro hw
      refine (ReachIn.restrict (A := unmarked block) hw hv ?_).mono_right
        Set.inter_subset_right
      exact fun a ha b hb hab => hS.closed a b ha hab hb
  have hcomp := isComponent_componentOf (G := g.toSimple) hvS
  rw [← heq] at hcomp
  refine ⟨hcomp, fun s hs => by simp [h.marked s, hS.sep s hs], ?_⟩
  intro a b ha hab hb
  rw [h.marked a, Bool.or_eq_false_iff, decide_eq_false_iff_not] at ha
  rw [h.marked b, Bool.or_eq_false_iff, decide_eq_false_iff_not]
  refine ⟨hS.closed a b ha.1 hab hb, fun hbl => ha.2 ?_⟩
  exact hcomp.closed b hbl a hab.symm fun haS => by
    simp [hS.sep a haS] at ha

/-- The list `cs` consists of the components of `g` without `S`. -/
structure IsComponentList (g : Graph n) (S : Set (Fin n))
    (cs : List (List (Fin n))) : Prop where
  isComponent : ∀ c ∈ cs, g.toSimple.IsComponent S (vset c)
  nodup : ∀ c ∈ cs, c.Nodup
  cover : ∀ v, v ∉ S → ∃ c ∈ cs, v ∈ c
  disjoint : cs.Pairwise fun c d => ∀ v ∈ c, v ∉ d

theorem IsComponentList.exists_eq {S : Set (Fin n)} {cs : List (List (Fin n))}
    (h : IsComponentList g S cs) {C : Set (Fin n)}
    (hC : g.toSimple.IsComponent S C) : ∃ c ∈ cs, vset c = C := by
  obtain ⟨v, hv⟩ := hC.nonempty
  obtain ⟨c, hc, hvc⟩ := h.cover v (hC.notMem v hv)
  exact ⟨c, hc, (h.isComponent c hc).eq_of_mem hC hvc hv⟩

/-- The state of a scan that collects components: the bitmap marks the
separator and the components found so far, and nothing else. -/
structure ComponentScan (g : Graph n) (S : Set (Fin n)) (block : Fin n → Bool)
    (cs : List (List (Fin n))) : Prop where
  marks : MarksComponents g S block
  isComponent : ∀ c ∈ cs, g.toSimple.IsComponent S (vset c)
  nodup : ∀ c ∈ cs, c.Nodup
  cover : ∀ v, v ∉ S → block v = true → ∃ c ∈ cs, v ∈ c
  marked : ∀ c ∈ cs, ∀ v ∈ c, block v = true
  disjoint : cs.Pairwise fun c d => ∀ v ∈ c, v ∉ d

theorem componentScan_mark (l : List (Fin n)) :
    ComponentScan g (vset l) (mark (fun _ => false) l) [] where
  marks := marksComponents_mark l
  isComponent := by simp
  nodup := by simp
  cover := fun v hv hbv => absurd (by simpa [mark_false_apply] using hbv) hv
  marked := by simp
  disjoint := List.Pairwise.nil

/-- One search from an unmarked vertex adds one component. -/
theorem ComponentScan.step {S : Set (Fin n)} {block : Fin n → Bool}
    {cs : List (List (Fin n))} (h : ComponentScan g S block cs) (hg : g.Valid)
    {v : Fin n} (hv : block v = false) :
    ComponentScan g S (g.findComponentAndMark v block).1
      (cs ++ [(g.findComponentAndMark v block).2]) ∧
    v ∈ (g.findComponentAndMark v block).2 := by
  have hres := findComponentAndMark_spec hg hv
  obtain ⟨hcomp, hmarks⟩ := hres.isComponent h.marks hv
  refine ⟨⟨hmarks, ?_, ?_, ?_, ?_, ?_⟩, (hres.mem_iff v).mpr (ReachIn.refl v)⟩
  · intro c hc
    rcases List.mem_append.mp hc with hc | hc
    · exact h.isComponent c hc
    · exact List.mem_singleton.mp hc ▸ hcomp
  · intro c hc
    rcases List.mem_append.mp hc with hc | hc
    · exact h.nodup c hc
    · exact List.mem_singleton.mp hc ▸ hres.nodup
  · intro w hw hbw
    rw [hres.marked w, Bool.or_eq_true, decide_eq_true_iff] at hbw
    rcases hbw with hbw | hbw
    · obtain ⟨c, hc, hwc⟩ := h.cover w hw hbw
      exact ⟨c, List.mem_append_left _ hc, hwc⟩
    · exact ⟨_, by simp, hbw⟩
  · intro c hc w hwc
    rw [hres.marked w, Bool.or_eq_true, decide_eq_true_iff]
    rcases List.mem_append.mp hc with hc | hc
    · exact Or.inl (h.marked c hc w hwc)
    · exact Or.inr (List.mem_singleton.mp hc ▸ hwc)
  · rw [List.pairwise_append]
    refine ⟨h.disjoint, by simp, fun c hc d hd w hw hwd => ?_⟩
    rw [List.mem_singleton.mp hd] at hwd
    have hmem := ReachIn.mem (X := unmarked block) ((hres.mem_iff w).mp hwd) hv
    rw [mem_unmarked, h.marked c hc w hw] at hmem
    cases hmem

/-- A finished scan lists the components. -/
theorem ComponentScan.isComponentList {S : Set (Fin n)} {block : Fin n → Bool}
    {cs : List (List (Fin n))} (h : ComponentScan g S block cs)
    (hall : ∀ v, v ∉ S → block v = true) : IsComponentList g S cs :=
  ⟨h.isComponent, h.nodup, fun v hv => h.cover v hv (hall v hv), h.disjoint⟩

theorem components_spec (hg : g.Valid) (separator : List (Fin n)) :
    IsComponentList g (vset separator) (g.components separator) := by
  have scan : ∀ (is : List (Fin n)) (s : (Fin n → Bool) × List (List (Fin n))),
      ComponentScan g (vset separator) s.1 s.2 →
      let r := is.foldl (fun (s : (Fin n → Bool) × List (List (Fin n))) i =>
        if s.1 i then s
        else ((g.findComponentAndMark i s.1).1,
          s.2 ++ [(g.findComponentAndMark i s.1).2])) s
      ComponentScan g (vset separator) r.1 r.2 ∧
        ∀ v, v ∈ is ∨ s.1 v = true → r.1 v = true := by
    intro is
    induction is with
    | nil => exact fun s h => ⟨h, fun v hv => hv.resolve_left (by simp)⟩
    | cons i is ih =>
        intro s h
        rw [List.foldl_cons]
        by_cases hi : s.1 i = true
        · rw [if_pos hi]
          refine ⟨(ih s h).1, fun v hv => (ih s h).2 v ?_⟩
          rw [List.mem_cons, or_assoc] at hv
          rcases hv with rfl | hv
          · exact Or.inr hi
          · exact hv
        · rw [if_neg hi]
          rw [Bool.not_eq_true] at hi
          obtain ⟨hstep, himem⟩ := h.step hg hi
          have hres := findComponentAndMark_spec hg hi
          refine ⟨(ih _ hstep).1, fun v hv => (ih _ hstep).2 v ?_⟩
          rw [List.mem_cons, or_assoc] at hv
          rw [hres.marked v]
          rcases hv with rfl | hv | hv
          · simp [himem]
          · exact Or.inl hv
          · simp [hv]
  obtain ⟨hscan, hall⟩ := scan (List.finRange n)
    (mark (fun _ => false) separator, []) (componentScan_mark separator)
  exact hscan.isComponentList fun v _ => hall v (Or.inl (List.mem_finRange v))

/-! ## Neighbourhoods -/

section Sorting

variable {α : Type*} [LinearOrder α]

theorem mem_sort {l : List α} {x : α} : x ∈ sort l ↔ x ∈ l :=
  List.mem_insertionSort _

theorem sort_perm (l : List α) : (sort l).Perm l :=
  List.perm_insertionSort _ l

theorem sort_sorted (l : List α) : (sort l).Pairwise (· ≤ ·) :=
  List.pairwise_insertionSort (· ≤ ·) l

theorem mem_sortAndDedup {l : List α} {x : α} : x ∈ sortAndDedup l ↔ x ∈ l := by
  rw [sortAndDedup, List.mem_dedup, mem_sort]

theorem sortAndDedup_nodup (l : List α) : (sortAndDedup l).Nodup :=
  List.nodup_dedup _

theorem sortAndDedup_sorted (l : List α) : (sortAndDedup l).Pairwise (· < ·) := by
  have hle : (sortAndDedup l).Pairwise (· ≤ ·) :=
    (sort_sorted l).sublist (List.dedup_sublist _)
  exact hle.imp₂ (fun _ _ hab hne => lt_of_le_of_ne hab hne) (sortAndDedup_nodup l)

theorem length_sortAndDedup_le (l : List α) : (sortAndDedup l).length ≤ l.length := by
  rw [← (sort_perm l).length_eq]
  exact (List.dedup_sublist _).length_le

theorem sort_nodup {l : List α} (h : l.Nodup) : (sort l).Nodup :=
  (sort_perm l).nodup_iff.mpr h

theorem sort_sortedLT {l : List α} (h : l.Nodup) : (sort l).Pairwise (· < ·) :=
  (sort_sorted l).imp₂ (fun _ _ hab hne => lt_of_le_of_ne hab hne) (sort_nodup h)

@[simp] theorem vset_sort (l : List α) : vset (sort l) = vset l := by
  ext x
  exact mem_sort

/-- Strictly sorted vectors with the same elements are equal. -/
theorem eq_of_vset_eq {l k : List α} (hl : l.Pairwise (· < ·))
    (hk : k.Pairwise (· < ·)) (h : vset l = vset k) : l = k := by
  have hperm : l.Perm k :=
    (List.perm_ext_iff_of_nodup (hl.imp ne_of_lt) (hk.imp ne_of_lt)).mpr
      (vset_eq_iff.mp h)
  exact hperm.eq_of_pairwise (fun a b _ _ hab hba => absurd hab (lt_asymm hba)) hl hk

end Sorting

theorem unmark_apply (bits : Fin n → Bool) (l : List (Fin n)) (v : Fin n) :
    l.foldl (fun b v => Function.update b v false) bits v =
      (bits v && decide (v ∉ l)) := by
  induction l generalizing bits with
  | nil => simp
  | cons a l ih =>
      rw [List.foldl_cons, ih]
      by_cases hva : v = a
      · subst hva
        simp
      · simp [hva]

theorem mem_neighbors (hg : g.Valid) {vs : List (Fin n)} {v : Fin n} :
    v ∈ g.neighbors vs ↔ v ∈ g.toSimple.nbhd (vset vs) := by
  have hiff : (v ∉ vs ∧ v ∈ vs.flatMap g.adjList) ↔
      v ∈ g.toSimple.nbhd (vset vs) := by
    simp only [mem_nbhd, mem_vset, List.mem_flatMap, hg.mem_adjList_iff]
  rw [← hiff]
  unfold Graph.neighbors
  dsimp only
  split
  · simp [unmark_apply, mark_false_apply, and_comm]
  · simp [mem_sortAndDedup, and_comm]

theorem vset_neighbors (hg : g.Valid) (vs : List (Fin n)) :
    vset (g.neighbors vs) = g.toSimple.nbhd (vset vs) := by
  ext v
  exact mem_neighbors hg

theorem neighbors_sorted (g : Graph n) (vs : List (Fin n)) :
    (g.neighbors vs).Pairwise (· < ·) := by
  unfold Graph.neighbors
  dsimp only
  split
  · exact (List.pairwise_lt_finRange n).sublist List.filter_sublist
  · exact (sortAndDedup_sorted _).sublist List.filter_sublist

end Triangulator
