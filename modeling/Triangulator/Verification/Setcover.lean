import Triangulator.Verification.SetcoverPrepare

/-!
# Set covers of bounded size

Between two calls of `Solve` no set is selected or excluded and no stamp is newer than the
last call, so a call answers as a first one would: with a smallest cover within the bound,
or an acceptable one, or with `{-1}` when the bound admits none.
-/

namespace Triangulator

open AbortM

namespace Setcover

/-- The sets of `T` are sets of the family and cover the universe. -/
def IsCover (family : List (List ℕ)) (universe' : List ℕ) (T : Finset (List ℕ)) : Prop :=
  (∀ set ∈ T, set ∈ family) ∧ ∀ u ∈ universe', ∃ set ∈ T, u ∈ set

/-- A call that is allowed. -/
def Legal (family : List (List ℕ)) (universe' : List ℕ) (okCover upperBound : ℤ) : Prop :=
  (∀ u ∈ universe', ∃ set ∈ family, u ∈ set) ∧ okCover ≤ upperBound

/-- The answer to a call. -/
structure IsAnswer (family : List (List ℕ)) (universe' : List ℕ) (okCover upperBound : ℤ)
    (r : List ℤ) : Prop where
  eq_iff : r = [-1] ↔ ¬∃ T, IsCover family universe' T ∧ (T.card : ℤ) ≤ upperBound
  length_le : r ≠ [-1] → (r.length : ℤ) ≤ upperBound
  exists_cover : r ≠ [-1] → ∃ T, IsCover family universe' T ∧ T.card = r.length
  le_or_minimum : r ≠ [-1] → (r.length : ℤ) ≤ okCover ∨
    ∀ T, IsCover family universe' T → r.length ≤ T.card

variable {family : List (List ℕ)} {universe' elements : List ℕ} {W : ℕ → List ℕ} {n m : ℕ}
  {s s' : Setcover} {ok ub : ℤ} {E : Setcover → Prop} {e : ℕ → ℕ} {φ : ℕ → List ℕ}
  {sortBy : (ℕ → ℕ) → List ℕ → List ℕ}

/-! ## What the search is given -/

/-- The search is over the elements `e` of the universe and over sets `φ` of the family
that differ on the universe. -/
structure IsPrepared (family : List (List ℕ)) (universe' : List ℕ) (W : ℕ → List ℕ) (n m : ℕ)
    (e : ℕ → ℕ) (φ : ℕ → List ℕ) : Prop where
  elem_mem : ∀ k < n, e k ∈ universe'
  exists_elem : ∀ u ∈ universe', ∃ k < n, e k = u
  set_mem : ∀ x < m, φ x ∈ family
  injective : ∀ x < m, ∀ y < m, φ x = φ y → x = y
  mem_iff : ∀ k < n, ∀ x, x ∈ W k ↔ x < m ∧ e k ∈ φ x
  exists_set : ∀ set ∈ family, ∀ u ∈ universe', u ∈ set →
    ∃ x < m, ∀ v ∈ universe', v ∈ set → v ∈ φ x

namespace IsPrepared

variable (h : IsPrepared family universe' W n m e φ)
include h

/-- A cover of the search is a cover of the universe with as many sets. -/
theorem exists_isCover {T : Finset ℕ} (hT : Covers W n T)
    (hmem : ∀ x ∈ T, ∃ i < n, x ∈ W i) :
    ∃ T', IsCover family universe' T' ∧ T'.card = T.card := by
  have hlt : ∀ x ∈ T, x < m := by
    intro x hx
    obtain ⟨i, hi, hxW⟩ := hmem x hx
    exact ((h.mem_iff i hi x).mp hxW).1
  refine ⟨T.image φ, ⟨?_, ?_⟩, ?_⟩
  · intro set hset
    obtain ⟨x, hx, rfl⟩ := Finset.mem_image.mp hset
    exact h.set_mem x (hlt x hx)
  · intro u hu
    obtain ⟨k, hk, rfl⟩ := h.exists_elem u hu
    obtain ⟨x, hx, hxW⟩ := hT k hk
    exact ⟨φ x, Finset.mem_image_of_mem φ hx, ((h.mem_iff k hk x).mp hxW).2⟩
  · apply Finset.card_image_of_injOn
    intro x hx y hy heq
    exact h.injective x (hlt x hx) y (hlt y hy) heq

/-- A cover of the universe gives a cover of the search that is not larger. -/
theorem exists_covers {T : Finset (List ℕ)} (hT : IsCover family universe' T) :
    ∃ T', Covers W n T' ∧ T'.card ≤ T.card := by
  classical
  -- The set of the search that does what a set of the family does.
  have hchoose : ∀ set : List ℕ, ∃ x, set ∈ T → (∃ u ∈ universe', u ∈ set) →
      x < m ∧ ∀ v ∈ universe', v ∈ set → v ∈ φ x := by
    intro set
    by_cases hset : set ∈ T ∧ ∃ u ∈ universe', u ∈ set
    · obtain ⟨hset, u, hu, hus⟩ := hset
      obtain ⟨x, hx⟩ := h.exists_set set (hT.1 set hset) u hu hus
      exact ⟨x, fun _ _ => hx⟩
    · exact ⟨0, fun hset' hex => absurd ⟨hset', hex⟩ hset⟩
  choose ψ hψ using hchoose
  refine ⟨T.image ψ, ?_, Finset.card_image_le⟩
  intro k hk
  have hek := h.elem_mem k hk
  obtain ⟨set, hset, hmem⟩ := hT.2 (e k) hek
  obtain ⟨hlt, hall⟩ := hψ set hset ⟨e k, hek, hmem⟩
  exact ⟨ψ set, Finset.mem_image_of_mem ψ hset, (h.mem_iff k hk _).mpr ⟨hlt, hall _ hek hmem⟩⟩

end IsPrepared

/-! ## The distinct sets -/

/-- The distinct nonempty traces of the sets of a family. -/
structure IsReduced (family : List (List ℕ)) (s : Setcover) (sets : ℕ → List ℕ) (m : ℕ) :
    Prop where
  nodup : ((List.range m).map sets).Nodup
  mem_iff : ∀ set, set ∈ (List.range m).map sets ↔
    0 < set.length ∧ ∃ g ∈ family, s.trace g = set

theorem isReduced_of_map {sets : ℕ → List ℕ}
    (hsets : (List.range m).map sets =
      sortAndDedup ((family.map s.trace).filter fun set => 0 < set.length)) :
    IsReduced family s sets m := by
  refine ⟨hsets ▸ sortAndDedup_nodup _, ?_⟩
  intro set
  rw [hsets, mem_sortAndDedup, List.mem_filter, List.mem_map, decide_eq_true_eq, and_comm]

namespace IsReduced

variable {sets : ℕ → List ℕ} (h : IsReduced family s sets m) (hplaced : IsPlaced elements s)
include h hplaced

/-- Every kept set is strictly increasing, and its elements are places. -/
theorem sorted (hfamily : ∀ set ∈ family, set.Pairwise (· < ·)) :
    ∀ x < m, (sets x).Pairwise (· < ·) ∧ ∀ i ∈ sets x, i < elements.length := by
  intro x hx
  obtain ⟨-, g, hg, heq⟩ := (h.mem_iff (sets x)).mp (List.mem_map_of_mem (List.mem_range.mpr hx))
  rw [← heq]
  refine ⟨hplaced.trace_sorted (hfamily g hg), ?_⟩
  intro i hi
  obtain ⟨hlt, -⟩ := hplaced.mem_trace.mp hi
  exact hlt

/-- The kept sets contain the elements that the family contains. -/
theorem exists_mem_iff : (∀ i < elements.length, ∃ x < m, i ∈ sets x) ↔
    ∀ u ∈ elements, ∃ set ∈ family, u ∈ set := by
  constructor
  · intro hpos u hu
    obtain ⟨i, hi, rfl⟩ := List.mem_iff_getElem.mp hu
    obtain ⟨x, hx, hmem⟩ := hpos i hi
    obtain ⟨-, g, hg, heq⟩ :=
      (h.mem_iff (sets x)).mp (List.mem_map_of_mem (List.mem_range.mpr hx))
    rw [← heq] at hmem
    obtain ⟨_, hmem'⟩ := hplaced.mem_trace.mp hmem
    exact ⟨g, hg, hmem'⟩
  · intro hcover i hi
    obtain ⟨g, hg, hmem⟩ := hcover elements[i] (List.getElem_mem hi)
    have htrace : i ∈ s.trace g := hplaced.mem_trace.mpr ⟨hi, hmem⟩
    obtain ⟨x, hx, heq⟩ :=
      List.mem_map.mp ((h.mem_iff _).mpr ⟨List.length_pos_of_mem htrace, g, hg, rfl⟩)
    exact ⟨x, List.mem_range.mp hx, heq ▸ htrace⟩

theorem exists_isPrepared {o : Setcover} (helements : ∀ u, u ∈ elements ↔ u ∈ universe')
    (ho : IsOrdered elements.length o)
    (hW : ∀ k < elements.length, ∀ x, x ∈ W k ↔ x < m ∧ o.elementOf k ∈ sets x) :
    ∃ e φ, IsPrepared family universe' W elements.length m e φ := by
  have hset : ∀ x, ∃ g, x < m → g ∈ family ∧ s.trace g = sets x := by
    intro x
    by_cases hx : x < m
    · obtain ⟨-, g, hg⟩ :=
        (h.mem_iff (sets x)).mp (List.mem_map_of_mem (List.mem_range.mpr hx))
      exact ⟨g, fun _ => hg⟩
    · exact ⟨[], fun hx' => absurd hx' hx⟩
  choose φ hφ using hset
  -- Membership in a trace, for an element given by its place.
  have htrace : ∀ g i (hi : i < elements.length), i ∈ s.trace g ↔ elements[i] ∈ g := by
    intro g i hi
    rw [hplaced.mem_trace]
    exact exists_prop_of_true hi
  refine ⟨fun k => elements.getD (o.elementOf k) 0, φ, ⟨?_, ?_, fun x hx => (hφ x hx).1, ?_, ?_, ?_⟩⟩
  · intro k hk
    rw [← helements, List.getD_eq_getElem _ _ (ho.lt k hk)]
    exact List.getElem_mem _
  · intro u hu
    obtain ⟨i, hi, rfl⟩ := List.mem_iff_getElem.mp ((helements u).mpr hu)
    obtain ⟨k, hk, rfl⟩ := ho.exists_eq i hi
    exact ⟨k, hk, List.getD_eq_getElem _ _ hi⟩
  · intro x hx y hy hxy
    have heq : sets x = sets y := by
      rw [← (hφ x hx).2, ← (hφ y hy).2, hxy]
    exact List.inj_on_of_nodup_map h.nodup (List.mem_range.mpr hx) (List.mem_range.mpr hy) heq
  · intro k hk x
    rw [hW k hk, List.getD_eq_getElem _ _ (ho.lt k hk)]
    apply and_congr_right
    intro hx
    rw [← (hφ x hx).2]
    exact htrace _ _ (ho.lt k hk)
  · intro g hg u hu hug
    obtain ⟨i, hi, rfl⟩ := List.mem_iff_getElem.mp ((helements u).mpr hu)
    have hpos : 0 < (s.trace g).length := List.length_pos_of_mem ((htrace g i hi).mpr hug)
    obtain ⟨x, hx, heq⟩ := List.mem_map.mp ((h.mem_iff _).mpr ⟨hpos, g, hg, rfl⟩)
    rw [List.mem_range] at hx
    refine ⟨x, hx, ?_⟩
    intro v hv hvg
    obtain ⟨j, hj, rfl⟩ := List.mem_iff_getElem.mp ((helements v).mpr hv)
    have heq' : s.trace (φ x) = s.trace g := (hφ x hx).2.trans heq
    rw [← htrace _ j hj, heq', htrace _ j hj]
    exact hvg

end IsReduced

/-! ## The preparation -/

/-- The state between two calls. -/
structure Neutral (family : List (List ℕ)) (s : Setcover) : Prop where
  gSets_eq : s.gSets = family
  sel_eq : ∀ x, s.sel x = false
  no_eq : ∀ x, s.no x = false
  tnoS_eq : s.tnoS = 0
  is_le : ∀ e, s.is e ≤ s.git

theorem neutral_init (family : List (List ℕ)) : Neutral family (init family) :=
  ⟨rfl, fun _ => rfl, fun _ => rfl, rfl, fun _ => Nat.zero_le 1⟩

/-- The state before the search. -/
structure Ready (family : List (List ℕ)) (universe' : List ℕ) (ok ub : ℤ) (n : ℕ)
    (s : Setcover) : Prop extends Neutral family s where
  legal : Legal family universe' ok ub
  cv_eq : s.cv = []
  opt_eq : s.opt = []
  okCover_eq : s.okCover = ok
  upperBound_eq : s.upperBound = ub
  prepared : ∃ m e φ, IsPrepared family universe' s.where_ n m e φ

/-- The preparation succeeds exactly for the calls that are allowed. -/
theorem wp_prepare (hs : Neutral family s) (hfamily : ∀ set ∈ family, set.Pairwise (· < ·))
    (hsort : IsSort sortBy) (hlegal : Legal family universe' ok ub ∨ ∀ s', E s') :
    wp (prepare sortBy universe' ok ub) (fun n => Ready family universe' ok ub n) E s := by
  obtain rfl := hs.gSets_eq
  rw [prepare, wp_bind, wp_modify, wp_bind, wp_get, wp_bind]
  by_cases hle : ok ≤ ub
  swap
  · rw [wp_assert, if_neg (by simpa using hle)]
    exact hlegal.resolve_left (fun h => hle h.2) _
  apply wp_assert_of (decide_eq_true hle)
  dsimp only
  set elements := sortAndDedup universe' with helements
  have hmem : ∀ u, u ∈ elements ↔ u ∈ universe' := fun u => mem_sortAndDedup
  set s₁ : Setcover := { s with git := s.git + 1, okCover := ok, upperBound := ub } with hs₁
  have hplaced : IsPlaced elements (place elements s₁) := by
    apply isPlaced_place (sortAndDedup_sorted universe')
    exact fun e => (Nat.lt_succ_of_le (hs.is_le e)).ne
  have hstamp : ∀ e, (place elements s₁).is e ≤ s.git + 1 := by
    intro e
    rw [place_is]
    by_cases he : e ∈ elements
    · rw [if_pos he]
    · rw [if_neg he]
      exact Nat.le_succ_of_le (hs.is_le e)
  set s₂ := place elements s₁ with hs₂
  rw [wp_bind, wp_modify, wp_bind]
  apply wp_imp (wp_traceRounds hplaced hfamily)
  rintro m₁ _ ⟨sets₁, rfl, hsets₁⟩
  have hm₁ : m₁ ≤ s₂.gSets.length := by
    have hlen := congrArg List.length hsets₁
    rw [List.length_map, List.length_range] at hlen
    rw [hlen]
    apply (List.length_filter_le _ _).trans
    rw [List.length_map]
  rw [wp_bind]
  apply wp_imp (wp_uniqueSets (s := { s₂ with sets := sets₁ }) hm₁)
  rintro m _ ⟨sets, rfl, hsets⟩
  dsimp only at hsets ⊢
  rw [hsets₁] at hsets
  have hred : IsReduced s.gSets s₂ sets m := isReduced_of_map hsets
  have hsorted := hred.sorted hplaced hfamily
  have hnd : ∀ x < m, (sets x).Nodup := fun x hx => (hsorted x hx).1.imp Nat.ne_of_lt
  -- The counts are positive exactly when every element is in some set.
  have hcover_iff := hred.exists_mem_iff hplaced
  apply wp_reorder (s := { s₂ with sets := sets }) hsort (fun x hx => (hsorted x hx).2) hnd
  · exact hlegal.imp_left fun h => hcover_iff.mpr fun u hu => h.1 u ((hmem u).mp hu)
  intro sets' w cnt cc um heur o hpos ho hw
  have hcover := hcover_iff.mp hpos
  rw [wp_bind, wp_modify, wp_pure]
  refine ⟨⟨rfl, ?_, hs.no_eq, hs.tnoS_eq, hstamp⟩, ⟨fun u hu => hcover u ((hmem u).mpr hu), hle⟩,
    rfl, rfl, rfl, rfl, m, hred.exists_isPrepared hplaced hmem ho hw⟩
  intro x
  dsimp only
  by_cases hx : x < m
  · rw [if_pos hx]
  · rw [if_neg hx]
    exact hs.sel_eq x

/-! ## A call -/

theorem Ready.searchInv (h : Ready family universe' ok ub n s) :
    SearchInv s.where_ n ub s := by
  have hex : s.excluded = [] := List.length_eq_zero_iff.mp (length_excluded.trans h.tnoS_eq)
  refine ⟨rfl, ?_, ?_, ?_, ?_, fun _ => h.upperBound_eq, fun hne => absurd h.opt_eq hne,
    h.upperBound_eq.le, ?_, fun hne => absurd h.opt_eq hne, ?_⟩
  · intro x
    rw [h.sel_eq, h.cv_eq]
    exact iff_of_false Bool.false_ne_true List.not_mem_nil
  · rw [h.cv_eq]
    exact List.nodup_nil
  · intro x
    rw [h.no_eq, hex]
    exact iff_of_false Bool.false_ne_true List.not_mem_nil
  · rw [hex]
    exact List.nodup_nil
  · rw [h.cv_eq]
    exact fun x hx => absurd hx List.not_mem_nil
  · rw [h.opt_eq]
    exact fun z hz => absurd hz List.not_mem_nil

/-- The result of the search. -/
theorem Ready.isAnswer (h : Ready family universe' ok ub n s)
    (hinv : SearchInv s.where_ n ub s') (hsearched : Searched ub s s')
    (hsettled : Settled s.where_ n ub (Extends s) s') :
    IsAnswer family universe' ok ub (if s'.opt.length = 0 then [-1] else s'.opt) := by
  obtain ⟨m, e, φ, hprepared⟩ := h.prepared
  have hextends : ∀ T, Extends s T := by
    intro T
    refine ⟨?_, ?_⟩
    · rw [h.cv_eq]
      exact fun x hx => absurd hx List.not_mem_nil
    · rw [List.length_eq_zero_iff.mp (length_excluded.trans h.tnoS_eq)]
      exact fun x hx => absurd hx List.not_mem_nil
  -- Every cover of the universe is at least as large as the best one.
  have hbest : ¬Done s' → ∀ T, IsCover family universe' T → best ub s' ≤ T.card := by
    intro hdone T hT
    obtain ⟨T', hT', hcard⟩ := hprepared.exists_covers hT
    apply (hsettled.resolve_left hdone T' (hextends T') hT').trans
    exact_mod_cast hcard
  by_cases hopt : s'.opt = []
  · rw [if_pos (List.length_eq_zero_iff.mpr hopt)]
    refine ⟨iff_of_true rfl ?_, fun hne => absurd rfl hne, fun hne => absurd rfl hne,
      fun hne => absurd rfl hne⟩
    rintro ⟨T, hT, hcard⟩
    have hle := hbest (fun hdone => hdone.1 hopt) T hT
    rw [best_of_nil hopt] at hle
    exact absurd (hle.trans hcard) (lt_add_one ub).not_ge
  · rw [if_neg fun hlen => hopt (List.length_eq_zero_iff.mp hlen)]
    have hne : s'.opt ≠ [-1] := by
      intro heq
      have hnonneg := hinv.opt_nonneg (-1) (heq ▸ List.mem_singleton_self _)
      omega
    have hlen : (s'.opt.length : ℤ) ≤ ub := hinv.upperBound_eq hopt ▸ hinv.upperBound_le
    obtain ⟨T, hcard, hT, hmem⟩ := hinv.cover hopt
    obtain ⟨T', hT', hcard'⟩ := hprepared.exists_isCover hT hmem
    refine ⟨iff_of_false hne fun hno => hno ⟨T', hT', ?_⟩, fun _ => hlen,
      fun _ => ⟨T', hT', hcard'.trans hcard⟩, fun _ => ?_⟩
    · rw [hcard', hcard]
      exact hlen
    · by_cases hdone : Done s'
      · left
        rw [← h.okCover_eq, ← hsearched.okCover_eq]
        exact hdone.2
      · right
        intro T hT
        have hle := hbest hdone T hT
        rw [best_of_ne hopt] at hle
        exact_mod_cast hle

/-- The numbers of an answer that is a cover. -/
theorem nonneg_of_searchInv {r : List ℤ} (hinv : SearchInv W n ub s')
    (hr : r = if s'.opt.length = 0 then [-1] else s'.opt) (hne : r ≠ [-1]) : ∀ x ∈ r, 0 ≤ x := by
  by_cases hlen : s'.opt.length = 0
  · rw [if_pos hlen] at hr
    exact absurd hr hne
  · rw [if_neg hlen] at hr
    exact hr ▸ hinv.opt_nonneg

/-- A call answers and restores the neutral state. -/
theorem wp_solve (hs : Neutral family s) (hfamily : ∀ set ∈ family, set.Pairwise (· < ·))
    (hsort : IsSort sortBy) (hlegal : Legal family universe' ok ub ∨ ∀ s', E s') :
    wp (solve sortBy universe' ok ub) (fun r s' => Neutral family s' ∧
      (universe' ≠ [] → IsAnswer family universe' ok ub r ∧ (r ≠ [-1] → ∀ x ∈ r, 0 ≤ x)))
      E s := by
  rw [solve]
  apply wp_ite
  · intro hlen
    rw [wp_pure]
    exact ⟨hs, fun hne => absurd (List.length_eq_zero_iff.mp hlen) hne⟩
  intro hlen
  rw [wp_bind]
  apply wp_imp (wp_prepare hs hfamily hsort hlegal)
  intro n s₁ hready
  have hn : 0 < n := by
    obtain ⟨m, e, φ, hprepared⟩ := hready.prepared
    obtain ⟨u, hu⟩ := List.length_pos_iff_exists_mem.mp (Nat.pos_of_ne_zero hlen)
    obtain ⟨k, hk, -⟩ := hprepared.exists_elem u hu
    exact Nat.zero_lt_of_lt hk
  have hgo : GoSpec s₁.where_ n ub 0 E (go 0 n) := goSpec hn (Nat.zero_add n)
  rw [wp_bind]
  apply wp_imp (hgo s₁ hready.searchInv (fun hne => absurd hready.cv_eq hne)
    fun j hj => absurd hj (Nat.not_lt_zero j))
  rintro _ s₂ ⟨hinv, hsearched, hex, hsettled⟩
  rw [wp_bind, wp_modify, wp_bind, wp_get, wp_pure]
  have htnoS : s₂.tnoS = 0 := by
    rw [← length_excluded, hex, length_excluded]
    exact hready.tnoS_eq
  refine ⟨⟨hsearched.gSets_eq.trans hready.gSets_eq, ?_, ?_, htnoS, ?_⟩,
    fun _ => ⟨hready.isAnswer hinv hsearched hsettled, nonneg_of_searchInv hinv rfl⟩⟩
  · intro x
    rw [← Bool.not_eq_true, hinv.sel_iff, hsearched.cv_eq, hready.cv_eq]
    exact List.not_mem_nil
  · intro x
    rw [← Bool.not_eq_true, hinv.no_iff, List.length_eq_zero_iff.mp (length_excluded.trans htnoS)]
    exact List.not_mem_nil
  · intro e
    change s₂.is e ≤ s₂.git
    rw [hsearched.is_eq, hsearched.git_eq]
    exact hready.is_le e

/-! ## Histories of calls -/

/-- Calls one after another on the same object. -/
def solveAll (sortBy : (ℕ → ℕ) → List ℕ → List ℕ) (calls : List (List ℕ × ℤ × ℤ)) :
    AbortM Setcover Unit :=
  forM calls fun call => do
    let _ ← solve sortBy call.1 call.2.1 call.2.2

theorem neutral_solveAll {calls : List (List ℕ × ℤ × ℤ)}
    (hfamily : ∀ set ∈ family, set.Pairwise (· < ·)) (hsort : IsSort sortBy)
    (hrun : solveAll sortBy calls (init family) = (some (), s)) : Neutral family s := by
  have hwp : wp (solveAll sortBy calls) (fun _ => Neutral family) (fun _ => True)
      (init family) := by
    apply wp_forM_inv (Neutral family) (neutral_init family)
    intro call _ s' hs'
    rw [wp_bind]
    apply wp_imp (wp_solve hs' hfamily hsort (Or.inr fun _ => trivial))
    intro r s'' h
    rw [wp_pure]
    exact h.1
  have hs := post_of_wp hwp hrun
  exact hs

/-- After any calls that returned, an allowed call returns a correct answer. -/
theorem solve_isAnswer {calls : List (List ℕ × ℤ × ℤ)}
    (hfamily : ∀ set ∈ family, set.Pairwise (· < ·)) (hsort : IsSort sortBy)
    (hrun : solveAll sortBy calls (init family) = (some (), s)) (hne : universe' ≠ [])
    (hlegal : Legal family universe' ok ub) :
    ∃ r s', solve sortBy universe' ok ub s = (some r, s') ∧
      IsAnswer family universe' ok ub r := by
  have hs := neutral_solveAll hfamily hsort hrun
  obtain ⟨r, s', hsolve, -, hanswer⟩ :=
    exists_of_wp (wp_solve (E := fun _ => False) hs hfamily hsort (Or.inl hlegal))
  exact ⟨r, s', hsolve, (hanswer hne).1⟩

/-- The four edges of a square cover three of its vertices after another call. -/
theorem solve_isAnswer_square :
    ∃ s r s', solveAll stableSort [([0, 1], 0, 2)] (init [[0, 1], [1, 2], [2, 3], [0, 3]]) =
        (some (), s) ∧ solve stableSort [3, 0, 2] 0 2 s = (some r, s') ∧
      IsAnswer [[0, 1], [1, 2], [2, 3], [0, 3]] [3, 0, 2] 0 2 r :=
  have hrun := Prod.ext rfl rfl
  have hlegal : Legal [[0, 1], [1, 2], [2, 3], [0, 3]] [3, 0, 2] 0 2 :=
    ⟨by decide, by decide⟩
  ⟨_, (solve_isAnswer (by decide) isSort_stableSort hrun (by decide) hlegal).imp
    fun _ => Exists.imp fun _ h => ⟨hrun, h⟩⟩

end Setcover

end Triangulator
