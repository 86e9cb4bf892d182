import Triangulator.Model.Setcover

/-!
# The search for a set cover

A set that was tried for an element is excluded until the loop over the sets of this
element ends.  A cover without excluded sets that is smaller than the best one so far is
found all the same: of its sets that contain the element, the one that is tried first meets
no exclusion.
-/

namespace Triangulator

open AbortM

namespace Setcover

/-- The sets of `T` contain every element. -/
def Covers (W : ℕ → List ℕ) (n : ℕ) (T : Finset ℕ) : Prop :=
  ∀ i < n, ∃ x ∈ T, x ∈ W i

/-- The sets that are excluded, the last one at the end. -/
def excluded (s : Setcover) : List ℕ :=
  (List.range s.tnoS).map s.tno

/-- The state between the steps of a search with the bound `ub` over the sets `W`. -/
structure SearchInv (W : ℕ → List ℕ) (n : ℕ) (ub : ℤ) (s : Setcover) : Prop where
  where_eq : s.where_ = W
  sel_iff : ∀ x, s.sel x = true ↔ x ∈ s.cv
  nodup : s.cv.Nodup
  no_iff : ∀ x, s.no x = true ↔ x ∈ s.excluded
  excluded_nodup : s.excluded.Nodup
  upperBound_of_nil : s.opt = [] → s.upperBound = ub
  upperBound_eq : s.opt ≠ [] → s.upperBound = s.opt.length
  upperBound_le : s.upperBound ≤ ub
  chosen : ∀ x ∈ s.cv, ∃ i < n, x ∈ W i
  cover : s.opt ≠ [] → ∃ T, T.card = s.opt.length ∧ Covers W n T ∧
    ∀ x ∈ T, ∃ i < n, x ∈ W i
  opt_nonneg : ∀ z ∈ s.opt, 0 ≤ z

/-- The search looks for covers with fewer sets than this. -/
def best (ub : ℤ) (s : Setcover) : ℤ :=
  if s.opt = [] then ub + 1 else s.opt.length

/-- A cover of an acceptable size has been found. -/
def Done (s : Setcover) : Prop :=
  s.opt ≠ [] ∧ (s.opt.length : ℤ) ≤ s.okCover

/-- The best cover is at least as good as before. -/
structure Improves (ub : ℤ) (s s' : Setcover) : Prop where
  okCover_eq : s'.okCover = s.okCover
  opt_ne : s.opt ≠ [] → s'.opt ≠ []
  best_le : best ub s' ≤ best ub s

/-- What a part of the search keeps. -/
structure Searched (ub : ℤ) (s s' : Setcover) : Prop extends Improves ub s s' where
  gSets_eq : s'.gSets = s.gSets
  git_eq : s'.git = s.git
  is_eq : s'.is = s.is
  cv_eq : s'.cv = s.cv

/-- The best cover is acceptable, or as small as every cover with the property. -/
def Settled (W : ℕ → List ℕ) (n : ℕ) (ub : ℤ) (P : Finset ℕ → Prop) (s : Setcover) : Prop :=
  Done s ∨ ∀ T, P T → Covers W n T → best ub s ≤ T.card

/-- The covers that contain the chosen sets and none of the excluded ones. -/
structure Extends (s : Setcover) (T : Finset ℕ) : Prop where
  chosen : ∀ x ∈ s.cv, x ∈ T
  allowed : ∀ x ∈ s.excluded, x ∉ T

variable {W : ℕ → List ℕ} {n i rest x : ℕ} {ub : ℤ} {s s' s'' : Setcover} {xs l r : List ℕ}
  {P Q : Finset ℕ → Prop} {E : Setcover → Prop} {T : Finset ℕ}

theorem Improves.refl (ub : ℤ) (s : Setcover) : Improves ub s s :=
  ⟨rfl, id, le_rfl⟩

theorem Improves.trans (h : Improves ub s s') (h' : Improves ub s' s'') : Improves ub s s'' :=
  ⟨h'.okCover_eq.trans h.okCover_eq, fun hne => h'.opt_ne (h.opt_ne hne),
    h'.best_le.trans h.best_le⟩

theorem Searched.refl (ub : ℤ) (s : Setcover) : Searched ub s s :=
  ⟨Improves.refl ub s, rfl, rfl, rfl, rfl⟩

theorem Searched.trans (h : Searched ub s s') (h' : Searched ub s' s'') : Searched ub s s'' :=
  ⟨h.toImproves.trans h'.toImproves, h'.gSets_eq.trans h.gSets_eq, h'.git_eq.trans h.git_eq,
    h'.is_eq.trans h.is_eq, h'.cv_eq.trans h.cv_eq⟩

theorem best_of_ne (h : s.opt ≠ []) : best ub s = s.opt.length := by
  rw [best, if_neg h]

theorem best_of_nil (h : s.opt = []) : best ub s = ub + 1 := by
  rw [best, if_pos h]

/-- A smaller best cover is acceptable when the old one was. -/
theorem Done.improves (h : Done s) (hs : Improves ub s s') : Done s' := by
  have hne := hs.opt_ne h.1
  refine ⟨hne, ?_⟩
  have hle := hs.best_le
  rw [best_of_ne h.1, best_of_ne hne] at hle
  rw [hs.okCover_eq]
  exact hle.trans h.2

theorem Settled.improves (h : Settled W n ub P s) (hs : Improves ub s s') :
    Settled W n ub P s' := by
  rcases h with h | h
  · exact Or.inl (h.improves hs)
  · exact Or.inr fun T hP hT => hs.best_le.trans (h T hP hT)

/-- A search that covers two cases. -/
theorem Settled.or (h : Settled W n ub P s) (h' : Settled W n ub Q s) :
    Settled W n ub (fun T => P T ∨ Q T) s := by
  rcases h with h | h
  · exact Or.inl h
  rcases h' with h' | h'
  · exact Or.inl h'
  · exact Or.inr fun T hPQ hT => hPQ.elim (fun hP => h T hP hT) fun hQ => h' T hQ hT

theorem Settled.imp (h : Settled W n ub P s) (himp : ∀ T, Q T → P T) :
    Settled W n ub Q s := by
  rcases h with h | h
  · exact Or.inl h
  · exact Or.inr fun T hQ hT => h T (himp T hQ) hT

theorem SearchInv.best_le (h : SearchInv W n ub s) : s.upperBound ≤ best ub s := by
  by_cases hopt : s.opt = []
  · rw [best_of_nil hopt, h.upperBound_of_nil hopt]
    exact (lt_add_one ub).le
  · rw [best_of_ne hopt, h.upperBound_eq hopt]

/-! ## Exclusions -/

@[simp] theorem length_excluded : s.excluded.length = s.tnoS := by
  rw [excluded, List.length_map, List.length_range]

@[simp] theorem excluded_choose : (choose x s).excluded = s.excluded := rfl

theorem excluded_exclude : (exclude x s).excluded = s.excluded ++ [x] := by
  have hmap : (List.range s.tnoS).map (Function.update s.tno s.tnoS x) =
      (List.range s.tnoS).map s.tno := by
    apply List.map_congr_left
    intro j hj
    rw [List.mem_range] at hj
    exact Function.update_of_ne hj.ne _ _
  rw [excluded, exclude]
  dsimp only
  rw [List.range_succ, List.map_append, hmap, List.map_singleton, Function.update_self]
  rfl

/-- The last exclusion is undone. -/
theorem SearchInv.restore (h : SearchInv W n ub s) (hl : s.excluded = l ++ [x]) :
    SearchInv W n ub (restore s) ∧ Searched ub s (restore s) ∧ (restore s).excluded = l := by
  have hlen := congrArg List.length hl
  rw [length_excluded, List.length_append, List.length_singleton] at hlen
  have hsplit : s.excluded = (List.range l.length).map s.tno ++ [s.tno l.length] := by
    rw [excluded, hlen, List.range_succ, List.map_append, List.map_singleton]
  obtain ⟨hl', hx⟩ := List.append_inj' (hl.symm.trans hsplit) rfl
  rw [List.cons.injEq] at hx
  have hpred : s.tnoS - 1 = l.length := by omega
  have hex : (Setcover.restore s).excluded = l := by
    change (List.range (s.tnoS - 1)).map s.tno = l
    rw [hpred, ← hl']
  have hnodup := h.excluded_nodup
  rw [hl] at hnodup
  refine ⟨⟨h.where_eq, h.sel_iff, h.nodup, ?_, ?_, h.upperBound_of_nil, h.upperBound_eq,
    h.upperBound_le, h.chosen, h.cover, h.opt_nonneg⟩, ⟨⟨rfl, id, le_rfl⟩, rfl, rfl, rfl, rfl⟩, hex⟩
  · intro y
    rw [hex]
    change Function.update s.no (s.tno (s.tnoS - 1)) false y = true ↔ y ∈ l
    rw [hpred, ← hx.1]
    by_cases hy : y = x
    · subst hy
      rw [Function.update_self]
      have hyl : y ∉ l := fun hmem =>
        (List.nodup_append.mp hnodup).2.2 y hmem y (List.mem_singleton_self y) rfl
      exact ⟨fun hf => absurd hf Bool.false_ne_true, fun hmem => absurd hmem hyl⟩
    · rw [Function.update_of_ne hy, h.no_iff, hl, List.mem_append, List.mem_singleton]
      exact or_iff_left hy
  · rw [hex]
    exact (List.nodup_append.mp hnodup).1

/-- The exclusions of a loop are undone. -/
theorem SearchInv.restore_iterate (h : SearchInv W n ub s) (hl : s.excluded = l ++ r) :
    SearchInv W n ub (Setcover.restore^[r.length] s) ∧
      Searched ub s (Setcover.restore^[r.length] s) ∧
      (Setcover.restore^[r.length] s).excluded = l := by
  induction r using List.reverseRecOn generalizing s with
  | nil =>
      rw [List.append_nil] at hl
      exact ⟨h, Searched.refl ub s, hl⟩
  | append_singleton r x ih =>
      rw [← List.append_assoc] at hl
      obtain ⟨hinv, hsearched, hex⟩ := h.restore hl
      obtain ⟨hinv', hsearched', hex'⟩ := ih hinv hex
      rw [List.length_append, List.length_singleton, Function.iterate_succ_apply]
      exact ⟨hinv', hsearched.trans hsearched', hex'⟩

/-! ## The search -/

/-- A chosen set keeps the bounds. -/
structure Fits (s : Setcover) : Prop where
  le : (s.cv.length : ℤ) ≤ s.upperBound
  lt : s.opt ≠ [] → s.cv.length < s.opt.length

/-- The end of the recursion. -/
theorem wp_leaf (h : SearchInv W n ub s) (hne : s.cv ≠ []) (hfits : Fits s)
    (hcover : ∀ j < n, ∃ x ∈ s.cv, x ∈ W j) :
    wp leaf (fun _ s' => SearchInv W n ub s' ∧ Searched ub s s' ∧ s'.excluded = s.excluded ∧
      Settled W n ub (Extends s) s') E s := by
  have hpos : 0 < s.cv.length := List.length_pos_of_ne_nil hne
  set s' : Setcover := { s with upperBound := s.cv.length, opt := s.cv.map fun x : ℕ => (x : ℤ) }
    with hs'
  have hlen : s'.opt.length = s.cv.length := by
    simp [hs']
  have hopt : s'.opt ≠ [] := List.ne_nil_of_length_pos (hlen ▸ hpos)
  have hbest : best ub s' = s.cv.length := by
    rw [best_of_ne hopt, hlen]
  have hcard : s.cv.toFinset.card = s.cv.length := List.toFinset_card_of_nodup h.nodup
  rw [leaf, wp_bind, wp_get, wp_bind]
  apply wp_assert_of (decide_eq_true hfits.le)
  rw [wp_bind, wp_modify, wp_bind]
  have hpost : SearchInv W n ub s' ∧ Searched ub s s' ∧ s'.excluded = s.excluded ∧
      Settled W n ub (Extends s) s' := by
    refine ⟨⟨h.where_eq, h.sel_iff, h.nodup, h.no_iff, h.excluded_nodup,
      fun hnil => absurd hnil hopt, fun _ => ?_, hfits.le.trans h.upperBound_le, h.chosen,
      fun _ => ?_, ?_⟩,
      ⟨⟨rfl, fun _ => hopt, ?_⟩, rfl, rfl, rfl, rfl⟩, rfl, Or.inr ?_⟩
    · rw [hlen]
    · refine ⟨s.cv.toFinset, hcard.trans hlen.symm, ?_, fun x hx =>
        h.chosen x (List.mem_toFinset.mp hx)⟩
      intro j hj
      obtain ⟨x, hx, hxW⟩ := hcover j hj
      exact ⟨x, List.mem_toFinset.mpr hx, hxW⟩
    · intro z hz
      obtain ⟨x, -, rfl⟩ := List.mem_map.mp hz
      exact Int.natCast_nonneg x
    · rw [hbest]
      exact hfits.le.trans h.best_le
    · intro T hT _
      rw [hbest, ← hcard]
      have hsub : s.cv.toFinset ⊆ T := fun x hx => hT.chosen x (List.mem_toFinset.mp hx)
      exact_mod_cast Finset.card_le_card hsub
  have hrest : wp (do
      modify fun s => { s with opt := s.cv.map fun x : ℕ => (x : ℤ) }
      let s ← get
      assert (decide (0 < s.opt.length)))
      (fun _ s' => SearchInv W n ub s' ∧ Searched ub s s' ∧ s'.excluded = s.excluded ∧
        Settled W n ub (Extends s) s') E { s with upperBound := s.cv.length } := by
    rw [wp_bind, wp_modify, wp_bind, wp_get]
    exact wp_assert_of (decide_eq_true (hlen ▸ hpos)) hpost
  apply wp_when
  · intro hopt'
    have hne' : s.opt ≠ [] := fun hnil => hopt' (congrArg List.length hnil)
    exact wp_assert_of (decide_eq_true (hfits.lt hne')) hrest
  · exact fun _ => hrest

/-- What a call of `Go` does when the chosen sets cover the elements before `i`. -/
def GoSpec (W : ℕ → List ℕ) (n : ℕ) (ub : ℤ) (i : ℕ) (E : Setcover → Prop)
    (call : AbortM Setcover Unit) : Prop :=
  ∀ s, SearchInv W n ub s → (s.cv ≠ [] → Fits s) → (∀ j < i, ∃ x ∈ s.cv, x ∈ W j) →
    wp call (fun _ s' => SearchInv W n ub s' ∧ Searched ub s s' ∧ s'.excluded = s.excluded ∧
      Settled W n ub (Extends s) s') E s

/-- What the loop of `Go` over the sets `xs` does. -/
structure LoopPost (W : ℕ → List ℕ) (n : ℕ) (ub : ℤ) (xs : List ℕ) (s s' : Setcover) :
    Prop where
  inv : SearchInv W n ub s'
  searched : Searched ub s s'
  excluded : ∃ r, s'.excluded = s.excluded ++ r
  settled : Settled W n ub (fun T => Extends s T ∧ ∃ x ∈ xs, x ∈ T) s'

/-- The loop ends early only when no cover with one more set is wanted. -/
theorem loopPost_of_stops (h : SearchInv W n ub s) (hstops : s.stops = true)
    (hxs : ∀ x ∈ xs, x ∉ s.cv) : LoopPost W n ub xs s s := by
  refine ⟨h, Searched.refl ub s, ⟨[], (List.append_nil _).symm⟩, ?_⟩
  have hcard : ∀ T, Extends s T ∧ (∃ x ∈ xs, x ∈ T) → s.cv.length + 1 ≤ T.card := by
    rintro T ⟨hT, x, hx, hxT⟩
    have hsub : insert x s.cv.toFinset ⊆ T := by
      intro y hy
      rcases Finset.mem_insert.mp hy with rfl | hy
      · exact hxT
      · exact hT.chosen y (List.mem_toFinset.mp hy)
    have hle := Finset.card_le_card hsub
    rw [Finset.card_insert_of_notMem fun hmem => hxs x hx (List.mem_toFinset.mp hmem),
      List.toFinset_card_of_nodup h.nodup] at hle
    exact hle
  rw [stops, Bool.or_eq_true, Bool.or_eq_true, decide_eq_true_eq, decide_eq_true_eq,
    decide_eq_true_eq] at hstops
  rcases hstops with (hub | heq) | hdone
  · right
    intro T hT _
    have hle : (s.cv.length : ℤ) + 1 ≤ T.card := by exact_mod_cast hcard T hT
    apply le_trans _ hle
    by_cases hopt : s.opt = []
    · rw [best_of_nil hopt, ← h.upperBound_of_nil hopt]
      omega
    · rw [best_of_ne hopt, ← h.upperBound_eq hopt]
      exact hub.le
  · right
    intro T hT _
    have hopt : s.opt ≠ [] := by
      intro hnil
      rw [hnil] at heq
      exact absurd heq (Nat.succ_ne_zero _)
    rw [best_of_ne hopt, ← heq]
    exact_mod_cast hcard T hT
  · left
    exact ⟨fun hnil => hdone.1 (congrArg List.length hnil), hdone.2⟩

/-- Choosing one more set. -/
theorem SearchInv.choose (h : SearchInv W n ub s) (hi : i < n) (hxW : x ∈ W i)
    (hx : x ∉ s.cv) (hstops : s.stops = false) :
    SearchInv W n ub (choose x s) ∧ Fits (choose x s) := by
  have hlen : (Setcover.choose x s).cv.length = s.cv.length + 1 :=
    List.length_append.trans rfl
  rw [stops, Bool.or_eq_false_iff, Bool.or_eq_false_iff, decide_eq_false_iff_not,
    decide_eq_false_iff_not, decide_eq_false_iff_not, not_lt] at hstops
  obtain ⟨⟨hub, hne⟩, -⟩ := hstops
  refine ⟨⟨h.where_eq, ?_, ?_, h.no_iff, h.excluded_nodup, h.upperBound_of_nil,
    h.upperBound_eq, h.upperBound_le, ?_, h.cover, h.opt_nonneg⟩, ?_, ?_⟩
  · intro y
    change Function.update s.sel x true y = true ↔ y ∈ s.cv ++ [x]
    rw [List.mem_append, List.mem_singleton, ← h.sel_iff]
    by_cases hy : y = x
    · subst hy
      simp
    · rw [Function.update_of_ne hy]
      exact (or_iff_left hy).symm
  · change (s.cv ++ [x]).Nodup
    rw [List.nodup_append]
    refine ⟨h.nodup, List.nodup_singleton x, ?_⟩
    intro a ha b hb hab
    rw [List.mem_singleton] at hb
    exact hx (hb ▸ hab ▸ ha)
  · intro y hy
    rcases List.mem_append.mp hy with hy | hy
    · exact h.chosen y hy
    · rw [List.mem_singleton] at hy
      exact ⟨i, hi, hy ▸ hxW⟩
  · rw [hlen]
    exact_mod_cast hub
  · intro hopt
    have hopt' : s.opt ≠ [] := hopt
    have hle := h.upperBound_eq hopt'
    rw [hlen]
    change s.cv.length + 1 < s.opt.length
    omega

/-- Taking the chosen set back and excluding it. -/
theorem SearchInv.exclude {s₀ : Setcover} (h : SearchInv W n ub s) (hcv : s.cv = s₀.cv ++ [x])
    (hno : x ∉ s.excluded) :
    SearchInv W n ub (exclude x s) ∧ (exclude x s).cv = s₀.cv := by
  have hcv' : (Setcover.exclude x s).cv = s₀.cv := by
    change s.cv.dropLast = s₀.cv
    rw [hcv, List.dropLast_concat]
  have hnodup := h.nodup
  rw [hcv] at hnodup
  refine ⟨⟨h.where_eq, ?_, ?_, ?_, ?_, h.upperBound_of_nil, h.upperBound_eq, h.upperBound_le,
    ?_, h.cover, h.opt_nonneg⟩, hcv'⟩
  · intro y
    rw [hcv']
    change Function.update s.sel x false y = true ↔ y ∈ s₀.cv
    by_cases hy : y = x
    · subst hy
      rw [Function.update_self]
      have hy' : y ∉ s₀.cv := fun hmem =>
        (List.nodup_append.mp hnodup).2.2 y hmem y (List.mem_singleton_self y) rfl
      exact ⟨fun hf => absurd hf Bool.false_ne_true, fun hmem => absurd hmem hy'⟩
    · rw [Function.update_of_ne hy, h.sel_iff, hcv, List.mem_append, List.mem_singleton]
      exact or_iff_left hy
  · rw [hcv']
    exact (List.nodup_append.mp hnodup).1
  · intro y
    rw [excluded_exclude, List.mem_append, List.mem_singleton, ← h.no_iff]
    change Function.update s.no x true y = true ↔ s.no y = true ∨ y = x
    by_cases hy : y = x
    · subst hy
      simp
    · rw [Function.update_of_ne hy]
      exact (or_iff_left hy).symm
  · rw [excluded_exclude, List.nodup_append]
    refine ⟨h.excluded_nodup, List.nodup_singleton x, ?_⟩
    intro a ha b hb hab
    rw [List.mem_singleton] at hb
    exact hno (hb ▸ hab ▸ ha)
  · intro y hy
    apply h.chosen y
    rw [hcv, ← hcv']
    exact List.mem_append_left [x] hy

/-- The loop over the sets that contain the element `i`. -/
theorem wp_goLoop {call : AbortM Setcover Unit} (hcall : GoSpec W n ub (i + 1) E call)
    (hi : i < n) (h : SearchInv W n ub s) (hxs : ∀ x ∈ xs, x ∈ W i ∧ x ∉ s.cv)
    (hcover : ∀ j < i, ∃ x ∈ s.cv, x ∈ W j) :
    wp (goLoop call xs) (fun _ s' => LoopPost W n ub xs s s') E s := by
  induction xs generalizing s with
  | nil =>
      refine ⟨h, Searched.refl ub s, ⟨[], (List.append_nil _).symm⟩, Or.inr ?_⟩
      rintro T ⟨-, x, hx, -⟩ _
      exact absurd hx List.not_mem_nil
  | cons x xs ih =>
      have hx := hxs x List.mem_cons_self
      have hrest : ∀ y ∈ xs, y ∈ W i ∧ y ∉ s.cv := fun y hy =>
        hxs y (List.mem_cons_of_mem x hy)
      rw [goLoop, wp_bind, wp_get]
      by_cases hstops : s.stops = true
      · rw [if_pos hstops, wp_pure]
        exact loopPost_of_stops h hstops fun y hy => (hxs y hy).2
      rw [if_neg hstops]
      by_cases hno : s.no x = true
      · -- An excluded set.
        rw [if_pos hno]
        apply wp_imp (ih h hrest hcover)
        intro _ s' hpost
        refine ⟨hpost.inv, hpost.searched, hpost.excluded, hpost.settled.imp ?_⟩
        rintro T ⟨hT, y, hy, hyT⟩
        refine ⟨hT, y, (List.mem_cons.mp hy).resolve_left ?_, hyT⟩
        rintro rfl
        exact hT.allowed y ((h.no_iff y).mp hno) hyT
      · have hxno : x ∉ s.excluded := fun hmem => hno ((h.no_iff x).mpr hmem)
        obtain ⟨hchoose, hfits⟩ := h.choose hi hx.1 hx.2 (Bool.not_eq_true _ ▸ hstops)
        rw [if_neg hno, wp_bind, wp_modify, wp_bind]
        apply wp_imp (hcall (choose x s) hchoose (fun _ => hfits) ?_)
        · intro _ s₂ h₂
          obtain ⟨hinv₂, hsearched₂, hex₂, hsettled₂⟩ := h₂
          have hcv₂ : s₂.cv = s.cv ++ [x] := hsearched₂.cv_eq
          have hexs₂ : s₂.excluded = s.excluded := hex₂
          obtain ⟨hinv₃, hcv₃⟩ := hinv₂.exclude hcv₂ (hexs₂ ▸ hxno)
          -- The two updates do not concern the best cover.
          have himproves₂ : Improves ub s (exclude x s₂) :=
            ⟨hsearched₂.okCover_eq, hsearched₂.opt_ne, hsearched₂.best_le⟩
          have hsearched₃ : Searched ub s (exclude x s₂) :=
            ⟨himproves₂, hsearched₂.gSets_eq, hsearched₂.git_eq, hsearched₂.is_eq,
              hcv₃⟩
          have hex₃ : (exclude x s₂).excluded = s.excluded ++ [x] := by
            rw [excluded_exclude, hexs₂]
          rw [wp_bind, wp_modify]
          apply wp_imp (ih hinv₃ (fun y hy => hcv₃ ▸ hrest y hy) (hcv₃ ▸ hcover))
          intro _ s' hpost
          obtain ⟨r, hr⟩ := hpost.excluded
          refine ⟨hpost.inv, hsearched₃.trans hpost.searched, ⟨x :: r, ?_⟩, ?_⟩
          · rw [hr, hex₃, List.append_assoc, List.singleton_append]
          · -- A cover either contains the chosen set or survives its exclusion.
            have hfirst : Settled W n ub (Extends (choose x s)) s' :=
              hsettled₂.improves ⟨hpost.searched.okCover_eq, hpost.searched.opt_ne,
                hpost.searched.best_le⟩
            apply (hfirst.or hpost.settled).imp
            rintro T ⟨hT, y, hy, hyT⟩
            by_cases hxT : x ∈ T
            · left
              refine ⟨?_, hT.allowed⟩
              intro z hz
              rcases List.mem_append.mp hz with hz | hz
              · exact hT.chosen z hz
              · rw [List.mem_singleton] at hz
                exact hz ▸ hxT
            · right
              refine ⟨⟨fun z hz => hT.chosen z (hcv₃ ▸ hz), ?_⟩, y, ?_, hyT⟩
              · intro z hz
                rw [hex₃, List.mem_append, List.mem_singleton] at hz
                rcases hz with hz | rfl
                · exact hT.allowed z hz
                · exact hxT
              · refine (List.mem_cons.mp hy).resolve_left ?_
                rintro rfl
                exact hxT hyT
        · intro j hj
          rcases Nat.lt_succ_iff_lt_or_eq.mp hj with hj | rfl
          · obtain ⟨y, hy, hyW⟩ := hcover j hj
            exact ⟨y, List.mem_append_left [x] hy, hyW⟩
          · exact ⟨x, List.mem_append_right s.cv (List.mem_singleton_self x), hx.1⟩

/-- `Go` on the elements from `i` on. -/
theorem goSpec (hn : 0 < n) (hi : i + rest = n) : GoSpec W n ub i E (go i rest) := by
  induction rest generalizing i with
  | zero =>
      intro s h hfits hcover
      have hin : i = n := hi
      subst hin
      obtain ⟨x, hx, -⟩ := hcover 0 hn
      have hne := List.ne_nil_of_mem hx
      exact wp_leaf h hne (hfits hne) hcover
  | succ rest ih =>
      intro s h hfits hcover
      have hnext : GoSpec W n ub (i + 1) E (go (i + 1) rest) := ih (by omega)
      rw [go, wp_bind, wp_get]
      by_cases hf : (s.where_ i).any s.sel = true
      · -- A chosen set contains the element.
        rw [if_pos hf]
        apply hnext s h hfits
        intro j hj
        rcases Nat.lt_succ_iff_lt_or_eq.mp hj with hj | rfl
        · exact hcover j hj
        · obtain ⟨x, hx, hsel⟩ := List.any_eq_true.mp hf
          exact ⟨x, (h.sel_iff x).mp hsel, h.where_eq ▸ hx⟩
      · rw [if_neg hf, wp_bind]
        have hxs : ∀ x ∈ s.where_ i, x ∈ W i ∧ x ∉ s.cv := by
          intro x hx
          refine ⟨h.where_eq ▸ hx, fun hxcv => hf ?_⟩
          exact List.any_eq_true.mpr ⟨x, hx, (h.sel_iff x).mpr hxcv⟩
        apply wp_imp (wp_goLoop hnext (by omega) h hxs hcover)
        intro _ s' hpost
        obtain ⟨r, hr⟩ := hpost.excluded
        have hlen : s'.tnoS - s.tnoS = r.length := by
          rw [← length_excluded, ← length_excluded, hr, List.length_append]
          omega
        rw [wp_modify, hlen]
        obtain ⟨hinv, hsearched, hex⟩ := hpost.inv.restore_iterate hr
        refine ⟨hinv, hpost.searched.trans hsearched, hex, ?_⟩
        have hsettled := hpost.settled.improves hsearched.toImproves
        -- Every cover contains one of the sets of the loop.
        rcases hsettled with hdone | hall
        · exact Or.inl hdone
        · right
          intro T hT hcov
          obtain ⟨x, hxT, hxW⟩ := hcov i (by omega)
          exact hall T ⟨hT, x, h.where_eq.symm ▸ hxW, hxT⟩ hcov

end Setcover

end Triangulator
