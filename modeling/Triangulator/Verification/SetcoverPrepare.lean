import Triangulator.Verification.Components
import Triangulator.Verification.SetcoverSearch

/-!
# The preparation of a set cover search

The stamps single out the elements of the universe whatever was asked before, the sets are
reduced to the places of these elements, sorted and made distinct, and the elements are
renumbered.  Every list that the search reads is written anew.
-/

namespace Triangulator

open AbortM

/-! ## Loops that write a vector -/

section Update

variable {α β ι : Type*} [DecidableEq α] {k : ι → α} {v : ι → β} {f : α → β} {l : List ι}
  {a : α}

theorem foldl_update_of_ne (h : ∀ p ∈ l, k p ≠ a) :
    l.foldl (fun f p => Function.update f (k p) (v p)) f a = f a := by
  induction l generalizing f with
  | nil => rfl
  | cons p l ih =>
      rw [List.foldl_cons, ih fun q hq => h q (List.mem_cons_of_mem p hq),
        Function.update_of_ne (h p List.mem_cons_self).symm]

theorem foldl_update_of_mem (hnd : (l.map k).Nodup) {p : ι} (hp : p ∈ l) :
    l.foldl (fun f p => Function.update f (k p) (v p)) f (k p) = v p := by
  induction l generalizing f with
  | nil => exact absurd hp List.not_mem_nil
  | cons q l ih =>
      rw [List.map_cons, List.nodup_cons] at hnd
      rw [List.foldl_cons]
      rcases List.mem_cons.mp hp with rfl | hp
      · rw [foldl_update_of_ne, Function.update_self]
        intro r hr heq
        exact hnd.1 (heq ▸ List.mem_map_of_mem hr)
      · exact ih hnd.2 hp

end Update

/-- A loop that counts the entries of a vector. -/
theorem foldl_increment (set : List ℕ) (cnt : ℕ → ℕ) (e : ℕ) :
    set.foldl (fun cnt x => Function.update cnt x (cnt x + 1)) cnt e =
      cnt e + set.count e := by
  induction set generalizing cnt with
  | nil => rfl
  | cons x set ih =>
      rw [List.foldl_cons, ih]
      by_cases hx : x = e
      · subst hx
        rw [Function.update_self, List.count_cons_self]
        omega
      · rw [Function.update_of_ne (Ne.symm hx), List.count_cons_of_ne hx]

/-- A loop that appends a number to the vectors at distinct indices. -/
theorem foldl_append {set : List ℕ} (hnd : set.Nodup) (w : ℕ → List ℕ) (i e : ℕ) :
    set.foldl (fun w x => Function.update w x (w x ++ [i])) w e =
      if e ∈ set then w e ++ [i] else w e := by
  induction set generalizing w with
  | nil => simp
  | cons x set ih =>
      rw [List.nodup_cons] at hnd
      rw [List.foldl_cons, ih hnd.2]
      by_cases hx : e = x
      · subst hx
        rw [if_neg hnd.1, if_pos List.mem_cons_self, Function.update_self]
      · rw [Function.update_of_ne hx]
        simp only [List.mem_cons, hx, false_or]

namespace Setcover

variable {s : Setcover} {n m : ℕ} {elements : List ℕ} {E : Setcover → Prop}

/-! ## The universe -/

theorem place_is (s : Setcover) (elements : List ℕ) (e : ℕ) :
    (place elements s).is e = if e ∈ elements then s.git else s.is e := by
  rw [place]
  dsimp only
  generalize s.is = is
  induction elements generalizing is with
  | nil => simp
  | cons x elements ih =>
      rw [List.foldl_cons, ih]
      by_cases hx : e = x
      · subst hx
        simp
      · rw [Function.update_of_ne hx]
        simp only [List.mem_cons, hx, false_or]

theorem place_plc (s : Setcover) (hnd : elements.Nodup) {i : ℕ} (hi : i < elements.length) :
    (place elements s).plc elements[i] = i := by
  have hmem : (elements[i], i) ∈ elements.zipIdx := by
    rw [List.mem_zipIdx_iff_getElem?, List.getElem?_eq_getElem hi]
  have hkeys : (elements.zipIdx.map Prod.fst).Nodup := by
    rw [List.zipIdx_map_fst]
    exact hnd
  exact foldl_update_of_mem (k := Prod.fst) (v := Prod.snd) hkeys hmem

/-- The sets without the elements outside the universe, in the numbers of the places. -/
structure IsPlaced (elements : List ℕ) (s : Setcover) : Prop where
  sorted : elements.Pairwise (· < ·)
  stamp : ∀ e, s.is e = s.git ↔ e ∈ elements
  place : ∀ i (hi : i < elements.length), s.plc elements[i] = i

theorem isPlaced_place (hsorted : elements.Pairwise (· < ·)) (hfresh : ∀ e, s.is e ≠ s.git) :
    IsPlaced elements (place elements s) := by
  refine ⟨hsorted, ?_, fun i hi => place_plc s (hsorted.imp Nat.ne_of_lt) hi⟩
  intro e
  rw [place_is]
  change (if e ∈ elements then s.git else s.is e) = s.git ↔ e ∈ elements
  by_cases he : e ∈ elements
  · simp [he]
  · rw [if_neg he]
    exact iff_of_false (hfresh e) he

namespace IsPlaced

variable (h : IsPlaced elements s)
include h

theorem mem_trace {set : List ℕ} {i : ℕ} :
    i ∈ s.trace set ↔ ∃ hi : i < elements.length, elements[i] ∈ set := by
  rw [trace, List.mem_map]
  constructor
  · rintro ⟨e, he, rfl⟩
    rw [List.mem_filter, decide_eq_true_eq, h.stamp] at he
    obtain ⟨j, hj, rfl⟩ := List.mem_iff_getElem.mp he.2
    rw [h.place j hj]
    exact ⟨hj, he.1⟩
  · rintro ⟨hi, hmem⟩
    refine ⟨elements[i], ?_, h.place i hi⟩
    rw [List.mem_filter, decide_eq_true_eq, h.stamp]
    exact ⟨hmem, List.getElem_mem hi⟩

/-- A strictly increasing set keeps its order. -/
theorem trace_sorted {set : List ℕ} (hset : set.Pairwise (· < ·)) :
    (s.trace set).Pairwise (· < ·) := by
  rw [trace, List.pairwise_map]
  apply (hset.filter _).imp_of_mem
  intro a b ha hb hab
  rw [List.mem_filter, decide_eq_true_eq, h.stamp] at ha hb
  obtain ⟨i, hi, rfl⟩ := List.mem_iff_getElem.mp ha.2
  obtain ⟨j, hj, rfl⟩ := List.mem_iff_getElem.mp hb.2
  rw [h.place i hi, h.place j hj]
  by_contra hij
  rcases Nat.lt_or_eq_of_le (Nat.le_of_not_lt hij) with hji | rfl
  · exact absurd hab (Nat.not_lt.mpr (List.pairwise_iff_getElem.mp h.sorted j i hj hi hji).le)
  · exact Nat.lt_irrefl _ hab

end IsPlaced

/-! ## The sets -/

theorem map_range_update (sets : ℕ → List ℕ) (set : List ℕ) :
    (List.range m).map (Function.update sets m set) = (List.range m).map sets := by
  apply List.map_congr_left
  intro j hj
  rw [List.mem_range] at hj
  exact Function.update_of_ne hj.ne _ _

/-- The loop over `g_sets_` keeps the nonempty traces. -/
theorem wp_traceRounds (h : IsPlaced elements s) (hset : ∀ set ∈ s.gSets, set.Pairwise (· < ·)) :
    wp (s.gSets.foldlM (traceRound elements.length) 0)
      (fun m s' => ∃ sets, s' = { s with sets := sets } ∧
        (List.range m).map sets = (s.gSets.map s.trace).filter fun set => 0 < set.length)
      E s := by
  apply wp_foldlM (fun (pre : List (List ℕ)) (m : ℕ) (s' : Setcover) =>
    ∃ sets, s' = { s with sets := sets } ∧
      (List.range m).map sets = (pre.map s.trace).filter fun set => 0 < set.length)
  · exact ⟨s.sets, rfl, rfl⟩
  rintro pre set post m _ hsplit ⟨sets, rfl, hsets⟩
  have hmem : set ∈ s.gSets := by
    rw [hsplit]
    exact List.mem_append_right pre List.mem_cons_self
  rw [traceRound, wp_bind, wp_modify, wp_bind, wp_get]
  have hupdate : Function.update sets m (trace { s with sets := sets } set) m = s.trace set :=
    Function.update_self _ _ _
  apply wp_ite
  · intro hpos
    have hpos' : 0 < (s.trace set).length := by
      rwa [← hupdate]
    have hchain : (s.trace set).IsChain (· < ·) :=
      List.isChain_iff_pairwise.mpr (h.trace_sorted (hset set hmem))
    have hall : (s.trace set).all (fun e => decide (e < elements.length)) = true := by
      rw [List.all_eq_true]
      intro e he
      obtain ⟨hlt, -⟩ := h.mem_trace.mp he
      exact decide_eq_true hlt
    rw [wp_bind]
    apply wp_assert_of
    · apply decide_eq_true
      dsimp only
      rw [hupdate]
      exact hchain
    rw [wp_bind]
    apply wp_assert_of
    · dsimp only
      rw [hupdate]
      exact hall
    rw [wp_pure]
    refine ⟨_, rfl, ?_⟩
    dsimp only
    rw [List.range_succ, List.map_append, List.map_singleton, map_range_update, hsets, hupdate,
      List.map_append, List.filter_append, List.map_singleton,
      List.filter_cons_of_pos (by simpa using hpos'), List.filter_nil]
  · intro hpos
    have hpos' : ¬0 < (s.trace set).length := by
      rwa [← hupdate]
    rw [wp_pure]
    refine ⟨_, rfl, ?_⟩
    dsimp only
    rw [map_range_update, hsets, List.map_append, List.filter_append, List.map_singleton,
      List.filter_cons_of_neg (by simpa using hpos'), List.filter_nil, List.append_nil]

theorem map_range_getD {α : Type*} (l : List α) (d : ℕ → α) :
    (List.range l.length).map (fun i => l.getD i (d i)) = l := by
  apply List.ext_getElem
  · rw [List.length_map, List.length_range]
  · intro i h₁ h₂
    rw [List.getElem_map, List.getElem_range, List.getD_eq_getElem _ _ h₂]

/-- The sets are sorted and made distinct. -/
theorem wp_uniqueSets (hm : m ≤ s.gSets.length) :
    wp (uniqueSets m)
      (fun m' s' => ∃ sets, s' = { s with sets := sets } ∧
        (List.range m').map sets = sortAndDedup ((List.range m).map s.sets)) E s := by
  set l := sortAndDedup ((List.range m).map s.sets) with hl
  have hlen : l.length ≤ s.gSets.length := by
    have hle := length_sortAndDedup_le ((List.range m).map s.sets)
    rw [List.length_map, List.length_range] at hle
    exact hle.trans hm
  rw [uniqueSets, wp_bind, wp_get]
  dsimp only
  rw [wp_bind, wp_modify, wp_bind, ← hl]
  apply wp_assert_of (decide_eq_true hlen)
  rw [wp_bind]
  apply wp_assert_of (decide_eq_true (List.isChain_iff_pairwise.mpr (sortAndDedup_sorted _)))
  rw [wp_pure]
  exact ⟨_, rfl, map_range_getD l s.sets⟩

/-! ## The counts -/

/-- The count of an element is the number of sets that contain it. -/
theorem cnt_count (hnd : ∀ set ∈ (List.range m).map s.sets, set.Nodup) {i : ℕ} (hi : i < n) :
    (count m n s).cnt i = ((List.range m).map s.sets).countP fun set => i ∈ set := by
  have hfold : ∀ (l : List ℕ) (cnt : ℕ → ℕ), (∀ j ∈ l, (s.sets j).Nodup) →
      l.foldl (fun cnt j => (s.sets j).foldl
        (fun cnt x => Function.update cnt x (cnt x + 1)) cnt) cnt i =
        cnt i + (l.map s.sets).countP fun set => i ∈ set := by
    intro l
    induction l with
    | nil => exact fun _ _ => rfl
    | cons j l ih =>
        intro cnt hl
        have hj := hl j List.mem_cons_self
        rw [List.foldl_cons, ih _ fun k hk => hl k (List.mem_cons_of_mem j hk), foldl_increment,
          List.map_cons]
        by_cases hmem : i ∈ s.sets j
        · rw [List.count_eq_one_of_mem hj hmem, List.countP_cons_of_pos (by simpa using hmem)]
          omega
        · rw [List.count_eq_zero.mpr hmem, List.countP_cons_of_neg (by simpa using hmem)]
          omega
  rw [count]
  dsimp only
  rw [hfold _ _ fun j hj => hnd _ (List.mem_map_of_mem hj), if_pos hi, Nat.zero_add]

/-- The pairs of counts and elements are sorted, unless some count is zero. -/
theorem wp_sortCounts (hpos : (∀ i < n, 0 < s.cnt i) ∨ ∀ s', E s') :
    wp (sortCounts n) (fun _ s' => (∀ i < n, 0 < s.cnt i) ∧ ∃ cc, s' = { s with cc := cc } ∧
      (List.range n).map cc = sort ((List.range n).map fun i => toLex (s.cnt i, i))) E s := by
  have hloop : wp (forM (List.range n) fun i => do
      let s ← get
      assert (decide (0 < s.cnt i))
      modify fun s => { s with cc := Function.update s.cc i (toLex (s.cnt i, i)) })
      (fun _ s' => ∃ cc, s' = { s with cc := cc } ∧
        ∀ i ∈ List.range n, 0 < s.cnt i ∧ cc i = toLex (s.cnt i, i)) E s := by
    apply wp_forM (fun (pre : List ℕ) (s' : Setcover) => ∃ cc, s' = { s with cc := cc } ∧
      ∀ i ∈ pre, 0 < s.cnt i ∧ cc i = toLex (s.cnt i, i))
    · exact ⟨s.cc, rfl, fun i hi => absurd hi List.not_mem_nil⟩
    rintro pre i post _ hsplit ⟨cc, rfl, hcc⟩
    have hi : i < n := by
      rw [← List.mem_range, hsplit]
      exact List.mem_append_right pre List.mem_cons_self
    rw [wp_bind, wp_get, wp_bind]
    by_cases hcnt : 0 < s.cnt i
    · apply wp_assert_of (decide_eq_true hcnt)
      rw [wp_modify]
      refine ⟨_, rfl, ?_⟩
      intro j hj
      by_cases hji : j = i
      · subst hji
        exact ⟨hcnt, Function.update_self _ _ _⟩
      · dsimp only
        rw [Function.update_of_ne hji]
        exact hcc j ((List.mem_append.mp hj).resolve_right fun h =>
          hji (List.mem_singleton.mp h))
    · rw [wp_assert, if_neg (by simpa using hcnt)]
      exact hpos.resolve_left (fun h => hcnt (h i hi)) _
  rw [sortCounts, wp_bind]
  apply wp_imp hloop
  rintro _ _ ⟨cc, rfl, hcc⟩
  have hmap : (List.range n).map cc = (List.range n).map fun i => toLex (s.cnt i, i) :=
    List.map_congr_left fun i hi => (hcc i hi).2
  rw [wp_modify]
  refine ⟨fun i hi => (hcc i (List.mem_range.mpr hi)).1, _, rfl, ?_⟩
  dsimp only
  rw [hmap]
  have hlen : (sort ((List.range n).map fun i => toLex (s.cnt i, i))).length = n := by
    rw [(sort_perm _).length_eq, List.length_map, List.length_range]
  have hget := map_range_getD (sort ((List.range n).map fun i => toLex (s.cnt i, i))) cc
  rwa [hlen] at hget

/-! ## The new numbers -/

/-- The element with the new number `k`. -/
def elementOf (s : Setcover) (k : ℕ) : ℕ :=
  (ofLex (s.cc k)).2

/-- The pairs are the elements with their counts, in some order. -/
structure IsOrdered (n : ℕ) (s : Setcover) : Prop where
  lt : ∀ k < n, s.elementOf k < n
  count_eq : ∀ k < n, (ofLex (s.cc k)).1 = s.cnt (s.elementOf k)
  nodup : ((List.range n).map s.elementOf).Nodup
  exists_eq : ∀ i < n, ∃ k < n, s.elementOf k = i

theorem isOrdered_of_sort
    (hcc : (List.range n).map s.cc = sort ((List.range n).map fun i => toLex (s.cnt i, i))) :
    IsOrdered n s := by
  have hperm : ((List.range n).map s.cc).Perm ((List.range n).map fun i => toLex (s.cnt i, i)) :=
    hcc ▸ sort_perm _
  have helem : ((List.range n).map s.elementOf).Perm (List.range n) := by
    have hmap := hperm.map fun c => (ofLex c).2
    rw [List.map_map, List.map_map] at hmap
    exact hmap.trans (List.Perm.of_eq (List.map_id _))
  have hmem : ∀ k < n, ∃ i < n, s.cc k = toLex (s.cnt i, i) := by
    intro k hk
    have hk' := hperm.mem_iff.mp (List.mem_map_of_mem (List.mem_range.mpr hk))
    obtain ⟨i, hi, heq⟩ := List.mem_map.mp hk'
    exact ⟨i, List.mem_range.mp hi, heq.symm⟩
  refine ⟨?_, ?_, helem.nodup_iff.mpr List.nodup_range, ?_⟩
  · intro k hk
    obtain ⟨i, hi, heq⟩ := hmem k hk
    rw [elementOf, heq]
    exact hi
  · intro k hk
    obtain ⟨i, -, heq⟩ := hmem k hk
    rw [elementOf, heq]
    rfl
  · intro i hi
    obtain ⟨k, hk, heq⟩ := List.mem_map.mp (helem.mem_iff.mpr (List.mem_range.mpr hi))
    exact ⟨k, List.mem_range.mp hk, heq⟩

theorem um_renumber (h : IsOrdered n s) {k : ℕ} (hk : k < n) :
    (renumber n s).um (s.elementOf k) = k :=
  foldl_update_of_mem (k := s.elementOf) (v := id) h.nodup (List.mem_range.mpr hk)

/-- The new number of an element that is in some set. -/
theorem um_eq_iff (h : IsOrdered n s) {k i : ℕ} (hk : k < n) (hi : i < n) :
    (renumber n s).um i = k ↔ i = s.elementOf k := by
  obtain ⟨j, hj, rfl⟩ := h.exists_eq i hi
  rw [um_renumber h hj]
  constructor
  · rintro rfl
    rfl
  · intro heq
    have hj' := List.inj_on_of_nodup_map h.nodup (List.mem_range.mpr hj) (List.mem_range.mpr hk)
    exact hj' heq

theorem mem_map_um (h : IsOrdered n s) {set : List ℕ} (hset : ∀ i ∈ set, i < n) {k : ℕ}
    (hk : k < n) : k ∈ set.map (renumber n s).um ↔ s.elementOf k ∈ set := by
  rw [List.mem_map]
  constructor
  · rintro ⟨i, hi, heq⟩
    rw [um_eq_iff h hk (hset i hi)] at heq
    exact heq ▸ hi
  · intro hmem
    exact ⟨s.elementOf k, hmem, um_renumber h hk⟩

theorem nodup_map_um (h : IsOrdered n s) {set : List ℕ} (hset : ∀ i ∈ set, i < n)
    (hnd : set.Nodup) : (set.map (renumber n s).um).Nodup := by
  apply hnd.map_on
  intro i hi j hj heq
  obtain ⟨k, hk, rfl⟩ := h.exists_eq i (hset i hi)
  rw [um_renumber h hk] at heq
  exact ((um_eq_iff h hk (hset j hj)).mp heq.symm).symm

/-- The sets that contain an element, in increasing order. -/
theorem where_relabel (hnd : ∀ i < m, ((s.sets i).map s.um).Nodup) (k : ℕ) :
    (relabel m s).where_ k =
      s.where_ k ++ (List.range m).filter fun i => k ∈ (s.sets i).map s.um := by
  have hfold : ∀ (l : List ℕ) (w : ℕ → List ℕ), (∀ i ∈ l, ((s.sets i).map s.um).Nodup) →
      l.foldl (fun w i => ((s.sets i).map s.um).foldl
        (fun w x => Function.update w x (w x ++ [i])) w) w k =
        w k ++ l.filter fun i => k ∈ (s.sets i).map s.um := by
    intro l
    induction l with
    | nil => exact fun w _ => (List.append_nil (w k)).symm
    | cons i l ih =>
        intro w hl
        rw [List.foldl_cons, ih _ fun j hj => hl j (List.mem_cons_of_mem i hj),
          foldl_append (hl i List.mem_cons_self)]
        by_cases hmem : k ∈ (s.sets i).map s.um
        · rw [if_pos hmem, List.filter_cons_of_pos (by simpa using hmem), List.append_assoc,
            List.singleton_append]
        · rw [if_neg hmem, List.filter_cons_of_neg (by simpa using hmem)]
  exact hfold (List.range m) s.where_ fun i hi => hnd i (List.mem_range.mp hi)

/-! ## The order of the sets -/

/-- What is assumed of `std::sort`: a permutation in which the values fall. -/
structure IsSort (sortBy : (ℕ → ℕ) → List ℕ → List ℕ) : Prop where
  perm : ∀ heur l, (sortBy heur l).Perm l
  sorted : ∀ heur l, (sortBy heur l).Pairwise fun a b => heur b ≤ heur a

/-- The stable behaviour. -/
def stableSort (heur : ℕ → ℕ) (l : List ℕ) : List ℕ :=
  l.insertionSort fun a b => heur b ≤ heur a

theorem isSort_stableSort : IsSort stableSort where
  perm _ _ := List.perm_insertionSort _ _
  sorted heur l := by
    have : IsTrans ℕ fun a b => heur b ≤ heur a := ⟨fun _ _ _ hab hbc => hbc.trans hab⟩
    have : Std.Total fun a b => heur b ≤ heur a := ⟨fun a b => le_total (heur b) (heur a)⟩
    exact List.pairwise_insertionSort _ l

variable {sortBy : (ℕ → ℕ) → List ℕ → List ℕ}

theorem wp_orderRounds {i : ℕ} {l : List ℕ} (hmem : ∀ x ∈ l, i ∈ s.sets x) :
    wp (forM l (orderRound i)) (fun _ s' => ∃ heur, s' = { s with heur := heur }) E s := by
  apply wp_forM_inv (fun (s' : Setcover) => ∃ heur, s' = { s with heur := heur }) ⟨s.heur, rfl⟩
  rintro x hx _ ⟨heur, rfl⟩
  rw [orderRound, wp_bind, wp_get, wp_bind]
  have hlt := List.idxOf_lt_length_of_mem (hmem x hx)
  apply wp_assert_of (decide_eq_true (Nat.sub_pos_of_lt hlt))
  rw [wp_modify]
  exact ⟨_, rfl⟩

theorem wp_orderSets (hsort : IsSort sortBy) (hmem : ∀ i < n, ∀ x ∈ s.where_ i, i ∈ s.sets x)
    (hlen : ∀ i < n, (ofLex (s.cc i)).1 = (s.where_ i).length) :
    wp (forM (List.range n) (orderSets sortBy))
      (fun _ s' => ∃ heur w, s' = { s with heur := heur, where_ := w } ∧
        ∀ i, (w i).Perm (s.where_ i)) E s := by
  apply wp_forM_inv (fun (s' : Setcover) => ∃ heur w, s' = { s with heur := heur, where_ := w } ∧
    ∀ i, (w i).Perm (s.where_ i)) ⟨s.heur, s.where_, rfl, fun _ => List.Perm.refl _⟩
  rintro i hi _ ⟨heur, w, rfl, hw⟩
  rw [List.mem_range] at hi
  rw [orderSets, wp_bind, wp_get, wp_bind]
  apply wp_imp (wp_orderRounds (s := { s with heur := heur, where_ := w })
    fun x hx => hmem i hi x ((hw i).mem_iff.mp hx))
  rintro _ _ ⟨heur', rfl⟩
  rw [wp_bind, wp_get, wp_bind]
  apply wp_assert_of (decide_eq_true ((hlen i hi).trans (hw i).length_eq.symm))
  rw [wp_modify]
  refine ⟨_, _, rfl, ?_⟩
  intro j
  by_cases hj : j = i
  · subst hj
    dsimp only
    rw [Function.update_self]
    exact (hsort.perm _ _).trans (hw j)
  · dsimp only
    rw [Function.update_of_ne hj]
    exact hw j

/-- The sets that contain an element, after the elements have new numbers. -/
theorem mem_where_relabel (h : IsOrdered n s) (hlt : ∀ x < m, ∀ i ∈ s.sets x, i < n)
    (hnd : ∀ x < m, (s.sets x).Nodup) {k : ℕ} (hk : k < n) :
    (relabel m (renumber n s)).where_ k =
      (List.range m).filter fun x => s.elementOf k ∈ s.sets x := by
  have hnd' : ∀ x < m, (((renumber n s).sets x).map (renumber n s).um).Nodup :=
    fun x hx => nodup_map_um h (hlt x hx) (hnd x hx)
  have hnil : (renumber n s).where_ k = [] := if_pos hk
  rw [where_relabel hnd', hnil, List.nil_append]
  apply List.filter_congr
  intro x hx
  exact decide_eq_decide.mpr (mem_map_um h (hlt x (List.mem_range.mp hx)) hk)

/-- The part of the preparation after the sets are distinct, before any rest of it. -/
theorem wp_reorder {α : Type} (hsort : IsSort sortBy) (hlt : ∀ x < m, ∀ i ∈ s.sets x, i < n)
    (hnd : ∀ x < m, (s.sets x).Nodup)
    (hpos : (∀ i < n, ∃ x < m, i ∈ s.sets x) ∨ ∀ s', E s')
    {c : AbortM Setcover α} {Q : α → Setcover → Prop}
    (hc : ∀ sets w cnt cc um heur o, (∀ i < n, ∃ x < m, i ∈ s.sets x) → IsOrdered n o →
      (∀ k < n, ∀ x, x ∈ w k ↔ x < m ∧ o.elementOf k ∈ s.sets x) →
      wp c Q E { s with
        sets := sets, where_ := w, cnt := cnt, cc := cc, um := um, heur := heur }) :
    wp (do
      modify (count m n)
      sortCounts n
      modify (renumber n)
      modify (relabel m)
      forM (List.range n) (orderSets sortBy)
      c) Q E s := by
  have hcnt : ∀ i < n, (count m n s).cnt i =
      ((List.range m).filter fun x => i ∈ s.sets x).length := by
    intro i hi
    have hnd' : ∀ set ∈ (List.range m).map s.sets, set.Nodup := by
      intro set hset
      obtain ⟨x, hx, rfl⟩ := List.mem_map.mp hset
      exact hnd x (List.mem_range.mp hx)
    rw [cnt_count hnd' hi, List.countP_map, List.countP_eq_length_filter]
    rfl
  have hcnt_pos : ∀ i < n, 0 < (count m n s).cnt i ↔ ∃ x < m, i ∈ s.sets x := by
    intro i hi
    rw [hcnt i hi, List.length_pos_iff_exists_mem]
    apply exists_congr
    intro x
    rw [List.mem_filter, List.mem_range, decide_eq_true_eq]
  rw [wp_bind, wp_modify, wp_bind]
  apply wp_imp (wp_sortCounts (hpos.imp_left fun h i hi => (hcnt_pos i hi).mpr (h i hi)))
  rintro _ _ ⟨hpos', cc, rfl, hcc⟩
  set o : Setcover := { count m n s with cc := cc } with ho
  have hord : IsOrdered n o := isOrdered_of_sort hcc
  have hwhere : ∀ k < n, (relabel m (renumber n o)).where_ k =
      (List.range m).filter fun x => o.elementOf k ∈ s.sets x :=
    fun k hk => mem_where_relabel hord hlt hnd hk
  rw [wp_bind, wp_modify, wp_bind, wp_modify, wp_bind]
  apply wp_imp (wp_orderSets hsort (s := relabel m (renumber n o)) ?_ ?_)
  · rintro _ _ ⟨heur, w, rfl, hw⟩
    apply hc _ w _ _ _ heur o (fun i hi => (hcnt_pos i hi).mp (hpos' i hi)) hord
    intro k hk x
    rw [(hw k).mem_iff, hwhere k hk, List.mem_filter, List.mem_range, decide_eq_true_eq]
  · intro k hk x hx
    rw [hwhere k hk, List.mem_filter, List.mem_range, decide_eq_true_eq] at hx
    have hset : (relabel m (renumber n o)).sets x =
        sort ((s.sets x).map (renumber n o).um) := if_pos hx.1
    rw [hset, mem_sort]
    exact (mem_map_um hord (hlt x hx.1) hk).mpr hx.2
  · intro k hk
    rw [hwhere k hk]
    have hk' := hord.lt k hk
    exact (hord.count_eq k hk).trans (hcnt _ hk')

end Setcover

end Triangulator
