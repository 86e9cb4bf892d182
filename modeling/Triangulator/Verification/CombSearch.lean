import Triangulator.GraphTheory.OneMoreVertex
import Triangulator.Model.CombEnum
import Triangulator.Verification.Components

/-!
# The stamping searches of the combinatorial enumeration

A search visits the vertices reached through unvisited vertices and stamps the
separator vertices next to them, so `extend2`, `HasFullComponent` and `IsPmc`
decide what they are named after.
-/

namespace Triangulator

open SimpleGraph

variable {n : ℕ} {g : Graph n}

namespace CombEnumerator

variable {touch : ℕ → Option ℕ} {u u₁ u₂ : Fin n → ℕ} {x v w : Fin n}

/-- The values that a search leaves alone or writes are never stamped again. -/
structure StampRule (touch : ℕ → Option ℕ) : Prop where
  one : touch 1 = none
  stamped : ∀ a b, touch a = some b → b ≠ 0 ∧ touch b = none

/-- The vertices of `l` were visited, those of `T` stamped, and nothing else
changed. -/
structure Stamps (touch : ℕ → Option ℕ) (u : Fin n → ℕ) (l : List (Fin n))
    (T : Set (Fin n)) (u₁ : Fin n → ℕ) : Prop where
  visit : ∀ w ∈ l, u w = 0 ∧ u₁ w = 1
  stamp : ∀ w ∈ T, u w ≠ 0 ∧ touch (u w) = some (u₁ w)
  rest : ∀ w, w ∉ l → w ∉ T → u₁ w = u w

/-- The bitmap of the visited vertices and the separator. -/
def blocked (u : Fin n → ℕ) (w : Fin n) : Bool :=
  decide (u w ≠ 0)

@[simp] theorem blocked_eq_false_iff : blocked u w = false ↔ u w = 0 := by
  simp [blocked]

/-- A separator vertex that can be stamped. -/
def Stampable (touch : ℕ → Option ℕ) (u : Fin n → ℕ) (w : Fin n) : Prop :=
  u w ≠ 0 ∧ (touch (u w)).isSome

namespace Stamps

variable {l l₁ l₂ : List (Fin n)} {T T₁ T₂ : Set (Fin n)}

theorem ne_zero (hrule : StampRule touch) (h : Stamps touch u l T u₁) (hw : u w ≠ 0) :
    u₁ w ≠ 0 := by
  by_cases hl : w ∈ l
  · exact absurd (h.visit w hl).1 hw
  · by_cases hT : w ∈ T
    · exact (hrule.stamped _ _ (h.stamp w hT).2).1
    · rwa [h.rest w hl hT]

theorem blocked_eq (hrule : StampRule touch) (h : Stamps touch u l T u₁) (w : Fin n) :
    blocked u₁ w = (blocked u w || decide (w ∈ l)) := by
  by_cases hl : w ∈ l
  · simp [blocked, hl, (h.visit w hl).2]
  · by_cases hw : u w = 0
    · have hT : w ∉ T := fun hT => (h.stamp w hT).1 hw
      simp [blocked, hl, hw, h.rest w hl hT]
    · simp [blocked, hl, hw, h.ne_zero hrule hw]

/-- What is stamped now was not stamped or visited before. -/
theorem notMem (hrule : StampRule touch) (h : Stamps touch u l T u₁)
    (hw : Stampable touch u₁ w) : w ∉ l ∧ w ∉ T := by
  refine ⟨fun hl => ?_, fun hT => ?_⟩
  · have := hw.2
    rw [(h.visit w hl).2, hrule.one] at this
    cases this
  · have := hw.2
    rw [(hrule.stamped _ _ (h.stamp w hT).2).2] at this
    cases this

theorem stampable_iff (hrule : StampRule touch) (h : Stamps touch u l T u₁) :
    Stampable touch u₁ w ↔ Stampable touch u w ∧ w ∉ T := by
  constructor
  · intro hw
    obtain ⟨hl, hT⟩ := h.notMem hrule hw
    rw [Stampable, h.rest w hl hT] at hw
    exact ⟨hw, hT⟩
  · rintro ⟨hw, hT⟩
    have hl : w ∉ l := fun hl => hw.1 (h.visit w hl).1
    rwa [Stampable, h.rest w hl hT]

theorem stampable (h : Stamps touch u l T u₁) (hw : w ∈ T) : Stampable touch u w := by
  have := h.stamp w hw
  exact ⟨this.1, by simp [this.2]⟩

/-- Two searches one after the other. -/
theorem append (hrule : StampRule touch) (h₁ : Stamps touch u l₁ T₁ u₁)
    (h₂ : Stamps touch u₁ l₂ T₂ u₂) :
    Stamps touch u (l₁ ++ l₂) (T₁ ∪ T₂) u₂ ∧ Disjoint T₁ T₂ := by
  have hT : ∀ w ∈ T₂, w ∉ l₁ ∧ w ∉ T₁ := fun w hw => h₁.notMem hrule (h₂.stampable hw)
  refine ⟨⟨fun w hw => ?_, fun w hw => ?_, fun w hl hT => ?_⟩,
    Set.disjoint_left.mpr fun w hw₁ hw₂ => (hT w hw₂).2 hw₁⟩
  · rcases List.mem_append.mp hw with hw | hw
    · obtain ⟨h0, h1⟩ := h₁.visit w hw
      refine ⟨h0, ?_⟩
      rw [h₂.rest w (fun hw₂ => ?_) fun hw₂ => (hT w hw₂).1 hw, h1]
      rw [(h₂.visit w hw₂).1] at h1
      cases h1
    · obtain ⟨h0, h1⟩ := h₂.visit w hw
      refine ⟨?_, h1⟩
      by_contra hne
      exact h₁.ne_zero hrule hne h0
  · rcases hw with hw | hw
    · obtain ⟨h0, h1⟩ := h₁.stamp w hw
      refine ⟨h0, ?_⟩
      rw [h₂.rest w (fun hw₂ => ?_) fun hw₂ => (hT w hw₂).2 hw, h1]
      exact (hrule.stamped _ _ h1).1 (h₂.visit w hw₂).1
    · obtain ⟨hl, hT₁⟩ := hT w hw
      rw [← h₁.rest w hl hT₁]
      exact h₂.stamp w hw
  · rw [List.mem_append, not_or] at hl
    rw [Set.mem_union, not_or] at hT
    rw [h₂.rest w hl.2 hT.2, h₁.rest w hl.1 hT.1]

end Stamps

/-- What a search from `x` does: it visits what is reached and stamps what it
sees. -/
structure SearchResult (g : Graph n) (touch : ℕ → Option ℕ) (u : Fin n → ℕ)
    (x : Fin n) (l : List (Fin n)) (T : Set (Fin n)) (u₁ : Fin n → ℕ) : Prop where
  stamps : Stamps touch u l T u₁
  dfs : DfsResult g (blocked u) x l (blocked u₁)
  mem_iff : ∀ w, w ∈ T ↔ Stampable touch u w ∧ ∃ v ∈ l, g.toSimple.Adj v w

/-- The state of a search from `x` after some neighbours of `x` were scanned. -/
structure SearchPartial (g : Graph n) (touch : ℕ → Option ℕ) (u : Fin n → ℕ)
    (x : Fin n) (l : List (Fin n)) (T : Set (Fin n)) (u₁ : Fin n → ℕ) : Prop where
  stamps : Stamps touch u l T u₁
  dfs : DfsPartial g (blocked u) x l (blocked u₁)
  sound : ∀ w ∈ T, ∃ v ∈ l, g.toSimple.Adj v w
  complete : ∀ v ∈ l, v ≠ x → ∀ w, g.toSimple.Adj v w → Stampable touch u w → w ∈ T

namespace SearchPartial

variable {l l' : List (Fin n)} {T T' : Set (Fin n)}

/-- A recursive call at an unvisited neighbour. -/
theorem visit (hrule : StampRule touch) (h : SearchPartial g touch u x l T u₁)
    (hadj : g.toSimple.Adj x v) (hv : u₁ v = 0)
    (h' : SearchResult g touch u₁ v l' T' u₂) :
    SearchPartial g touch u x (l ++ l') (T ∪ T') u₂ ∧ Disjoint T T' := by
  obtain ⟨hstamps, hdisj⟩ := h.stamps.append hrule h'.stamps
  refine ⟨⟨hstamps, h.dfs.append hadj (blocked_eq_false_iff.mpr hv) h'.dfs, ?_, ?_⟩,
    hdisj⟩
  · rintro w (hw | hw)
    · obtain ⟨a, ha, haw⟩ := h.sound w hw
      exact ⟨a, List.mem_append_left _ ha, haw⟩
    · obtain ⟨-, a, ha, haw⟩ := (h'.mem_iff w).mp hw
      exact ⟨a, List.mem_append_right _ ha, haw⟩
  · intro a ha hax w haw hw
    by_cases hwT : w ∈ T
    · exact Or.inl hwT
    · rcases List.mem_append.mp ha with ha | ha
      · exact absurd (h.complete a ha hax w haw hw) hwT
      · exact Or.inr ((h'.mem_iff w).mpr
          ⟨(h.stamps.stampable_iff hrule).mpr ⟨hw, hwT⟩, a, ha, haw⟩)

/-- A neighbour that is stamped. -/
theorem stamp (hrule : StampRule touch) (h : SearchPartial g touch u x l T u₁)
    (hadj : g.toSimple.Adj x v) (hv : u₁ v ≠ 0) {value : ℕ}
    (hvalue : touch (u₁ v) = some value) :
    SearchPartial g touch u x l (T ∪ {v}) (Function.update u₁ v value) ∧
      Disjoint T {v} := by
  have hone : Stamps touch u₁ [] {v} (Function.update u₁ v value) := by
    refine ⟨by simp, ?_, fun w _ hw => Function.update_of_ne hw _ _⟩
    rintro w rfl
    rw [Function.update_self]
    exact ⟨hv, hvalue⟩
  obtain ⟨hstamps, hdisj⟩ := h.stamps.append hrule hone
  rw [List.append_nil] at hstamps
  refine ⟨⟨hstamps, ⟨h.dfs.nodup, h.dfs.root, h.dfs.reach, h.dfs.closed, ?_⟩, ?_, ?_⟩,
    hdisj⟩
  · exact hstamps.blocked_eq hrule
  · rintro w (hw | rfl)
    · exact h.sound w hw
    · exact ⟨x, h.dfs.root, hadj⟩
  · exact fun a ha hax w haw hw => Or.inl (h.complete a ha hax w haw hw)

end SearchPartial

/-- With enough depth a search from an unvisited vertex succeeds and counts its
stamps. -/
theorem stampDfs_spec (hg : g.Valid) (hrule : StampRule touch) (fuel : ℕ)
    (u : Fin n → ℕ) (r : ℕ) (x : Fin n) (hx : u x = 0)
    (hfuel : (unmarked (blocked u)).ncard ≤ fuel) :
    ∃ l T u₁, stampDfs g touch fuel x (u, r) = some (u₁, r + T.ncard) ∧
      SearchResult g touch u x l T u₁ := by
  induction fuel generalizing u r x with
  | zero =>
      rw [Nat.le_zero, Set.ncard_eq_zero] at hfuel
      have hmem : x ∈ unmarked (blocked u) := blocked_eq_false_iff.mpr hx
      rw [hfuel] at hmem
      cases hmem
  | succ fuel ih =>
      -- Scanning the neighbours `ns` after `l` was visited and `T` stamped.
      have scan : ∀ (ns l : List (Fin n)) (T : Set (Fin n)) (u₁ : Fin n → ℕ),
          (∀ w ∈ ns, g.toSimple.Adj x w) → SearchPartial g touch u x l T u₁ →
          ∃ l' T' u', ns.foldlM (stampNeighbor touch (stampDfs g touch fuel))
              (u₁, r + T.ncard) = some (u', r + T'.ncard) ∧
            SearchPartial g touch u x l' T' u' ∧ (∀ w ∈ l, w ∈ l') ∧ T ⊆ T' ∧
            ∀ w ∈ ns, (u w = 0 → w ∈ l') ∧ (Stampable touch u w → w ∈ T') := by
        intro ns
        induction ns with
        | nil => exact fun l T u₁ _ h => ⟨l, T, u₁, rfl, h, fun _ hw => hw, subset_rfl, by simp⟩
        | cons v ns ihns =>
            intro l T u₁ hns h
            have hadj := hns v (by simp)
            have hns' : ∀ w ∈ ns, g.toSimple.Adj x w := fun w hw => hns w (by simp [hw])
            -- The rest of the scan, from a later state that accounts for `v`.
            have finish : ∀ (l₂ : List (Fin n)) (T₂ : Set (Fin n)) (u₂ : Fin n → ℕ),
                SearchPartial g touch u x l₂ T₂ u₂ → (∀ w ∈ l, w ∈ l₂) → T ⊆ T₂ →
                (u v = 0 → v ∈ l₂) → (Stampable touch u v → v ∈ T₂) →
                ∃ l' T' u', ns.foldlM (stampNeighbor touch (stampDfs g touch fuel))
                    (u₂, r + T₂.ncard) = some (u', r + T'.ncard) ∧
                  SearchPartial g touch u x l' T' u' ∧ (∀ w ∈ l, w ∈ l') ∧ T ⊆ T' ∧
                  ∀ w ∈ v :: ns, (u w = 0 → w ∈ l') ∧
                    (Stampable touch u w → w ∈ T') := by
              intro l₂ T₂ u₂ h₂ hl hT hv0 hvS
              obtain ⟨l', T', u', hfold, h', hl', hT', hall⟩ := ihns l₂ T₂ u₂ hns' h₂
              refine ⟨l', T', u', hfold, h', fun w hw => hl' w (hl w hw), hT.trans hT', ?_⟩
              refine List.forall_mem_cons.mpr ⟨⟨fun h0 => hl' v (hv0 h0),
                fun hS => hT' (hvS hS)⟩, hall⟩
            rw [List.foldlM_cons, stampNeighbor]
            dsimp only
            by_cases hv : u₁ v = 0
            · rw [if_pos hv]
              have hcard : (unmarked (blocked u₁)).ncard ≤ fuel := by
                have hlt : (unmarked (blocked u₁)).ncard < (unmarked (blocked u)).ncard := by
                  refine Set.ncard_lt_ncard ⟨fun w hw => ?_, fun hsub => ?_⟩
                    (Set.toFinite _)
                  · rw [mem_unmarked, h.stamps.blocked_eq hrule] at hw
                    exact (Bool.or_eq_false_iff.mp hw).1
                  · have hmem := hsub (show x ∈ unmarked (blocked u) from
                      blocked_eq_false_iff.mpr hx)
                    rw [mem_unmarked, blocked_eq_false_iff,
                      (h.stamps.visit x h.dfs.root).2] at hmem
                    cases hmem
                omega
              obtain ⟨l₂, T₂, u₂, hcall, hres⟩ := ih u₁ (r + T.ncard) v hv hcard
              obtain ⟨hpart, hdisj⟩ := h.visit hrule hadj hv hres
              rw [hcall, Option.bind_eq_bind, Option.bind_some, Nat.add_assoc,
                ← Set.ncard_union_eq hdisj (Set.toFinite _) (Set.toFinite _)]
              refine finish (l ++ l₂) (T ∪ T₂) u₂ hpart
                (fun w hw => List.mem_append_left _ hw) Set.subset_union_left
                (fun _ => List.mem_append_right _ ?_) fun hS => ?_
              · exact (hres.dfs.mem_iff v).mpr (ReachIn.refl v)
              · exact absurd hv (h.stamps.ne_zero hrule hS.1)
            · rw [if_neg hv]
              have hv0 : u v = 0 → v ∈ l := by
                intro h0
                by_contra hvl
                refine hv ?_
                rw [h.stamps.rest v hvl fun hT => (h.stamps.stamp v hT).1 h0, h0]
              cases hvalue : touch (u₁ v) with
              | none =>
                  refine finish l T u₁ h (fun w hw => hw) subset_rfl hv0 fun hS => ?_
                  by_contra hvT
                  have := ((h.stamps.stampable_iff hrule).mpr ⟨hS, hvT⟩).2
                  rw [hvalue] at this
                  cases this
              | some value =>
                  obtain ⟨hpart, hdisj⟩ := h.stamp hrule hadj hv hvalue
                  have hcount : r + T.ncard + 1 = r + (T ∪ {v}).ncard := by
                    rw [Set.ncard_union_eq hdisj (Set.toFinite _) (Set.toFinite _),
                      Set.ncard_singleton, Nat.add_assoc]
                  dsimp only
                  rw [Option.bind_eq_bind, Option.bind_some, hcount]
                  exact finish l (T ∪ {v}) _ hpart (fun w hw => hw)
                    Set.subset_union_left hv0 fun _ => Or.inr rfl
      have hone : Stamps touch u [x] ∅ (Function.update u x 1) := by
        refine ⟨?_, by simp, fun w hw _ => Function.update_of_ne (by simpa using hw) _ _⟩
        intro w hw
        obtain rfl := List.mem_singleton.mp hw
        exact ⟨hx, Function.update_self _ _ _⟩
      have hstart : SearchPartial g touch u x [x] ∅ (Function.update u x 1) := by
        refine ⟨hone, ⟨by simp, by simp, ?_, ?_, hone.blocked_eq hrule⟩, by simp, ?_⟩
        · intro w hw
          obtain rfl := List.mem_singleton.mp hw
          exact ⟨blocked_eq_false_iff.mpr hx, ReachIn.refl w⟩
        · exact fun w hw hwx => absurd (List.mem_singleton.mp hw) hwx
        · exact fun w hw hwx => absurd (List.mem_singleton.mp hw) hwx
      obtain ⟨l, T, u', hfold, hpart, -, -, hall⟩ := scan (g.adjList x) [x] ∅ _
        (fun w hw => hg.mem_adjList_iff.mp hw) hstart
      rw [Set.ncard_empty, Nat.add_zero] at hfold
      refine ⟨l, T, u', by rw [stampDfs, if_pos hx]; exact hfold, hpart.stamps,
        ⟨hpart.dfs.nodup, fun w => ⟨fun hw => (hpart.dfs.reach w hw).2, fun hw => ?_⟩,
          hpart.dfs.marked⟩, fun w => ⟨fun hw => ⟨hpart.stamps.stampable hw,
          hpart.sound w hw⟩, ?_⟩⟩
      · refine hw.mem_of_closed (A := vset l) hpart.dfs.root fun a ha b hb hab => ?_
        by_cases hax : a = x
        · subst hax
          exact (hall b (hg.mem_adjList_iff.mpr hab)).1 (blocked_eq_false_iff.mp hb)
        · exact hpart.dfs.closed a ha hax b hab hb
      · rintro ⟨hS, a, ha, haw⟩
        by_cases hax : a = x
        · subst hax
          exact (hall w (hg.mem_adjList_iff.mpr haw)).2 hS
        · exact hpart.complete a ha hax w haw hS

/-! ## Extending by a vertex -/

theorem fillAt_apply (vs : List (Fin n)) (value : ℕ) (v : Fin n) :
    fillAt vs value v = if v ∈ vs then value else 0 := by
  induction vs using List.reverseRecOn with
  | nil => simp [fillAt]
  | append_singleton vs a ih =>
      rw [fillAt, List.foldl_append]
      change Function.update (fillAt vs value) a value v = _
      by_cases hva : v = a
      · subst hva
        simp
      · rw [Function.update_of_ne hva, ih]
        simp [hva]

theorem fillAt_eq_zero_iff {vs : List (Fin n)} {value : ℕ} (hvalue : value ≠ 0) :
    fillAt vs value v = 0 ↔ v ∉ vs := by
  rw [fillAt_apply]
  split <;> simp [*]

theorem unmarked_fillAt {vs : List (Fin n)} {value : ℕ} (hvalue : value ≠ 0) :
    unmarked (blocked (fillAt vs value)) = (vset vs)ᶜ := by
  ext v
  rw [mem_unmarked, blocked_eq_false_iff, fillAt_eq_zero_iff hvalue]
  rfl

theorem ncard_unmarked_le (b : Fin n → Bool) : (unmarked b).ncard ≤ n :=
  (Set.ncard_le_ncard (Set.subset_univ _) (Set.toFinite _)).trans
    (by simp [Set.ncard_univ])

theorem stampRule_dfs2 :
    StampRule fun value => if value = 2 then some 3 else none := by
  refine ⟨by simp, fun a b h => ?_⟩
  by_cases ha : a = 2
  · rw [if_pos ha, Option.some_inj] at h
    subst h
    simp
  · rw [if_neg ha] at h
    cases h

theorem stampRule_dfs1 (it : ℕ) :
    StampRule fun value => if 1 < value ∧ value < it then some it else none := by
  refine ⟨by simp, fun a b h => ?_⟩
  by_cases ha : 1 < a ∧ a < it
  · rw [if_pos ha, Option.some_inj] at h
    subst h
    exact ⟨by omega, by simp⟩
  · rw [if_neg ha] at h
    cases h

/-- `dfs2` stamps the neighbourhood of the component of its root. -/
theorem dfs2_spec (hg : g.Valid) {vs : List (Fin n)} (hx : x ∉ vs) :
    ∃ u₁, dfs2 g x (fillAt vs 2) = some u₁ ∧ ∀ v ∈ vs,
      (u₁ v = 3 ↔ v ∈ g.toSimple.nbhd (g.toSimple.componentOf (vset vs) x)) := by
  obtain ⟨l, T, u₁, hdfs, hres⟩ := stampDfs_spec hg stampRule_dfs2 n (fillAt vs 2) 0 x
    ((fillAt_eq_zero_iff (by decide)).mpr hx) (ncard_unmarked_le _)
  have hl : vset l = g.toSimple.componentOf (vset vs) x := by
    ext w
    rw [mem_vset, hres.dfs.mem_iff, unmarked_fillAt (by decide)]
    rfl
  refine ⟨u₁, by rw [dfs2, hdfs]; rfl, fun v hv => ?_⟩
  have hv2 : fillAt vs 2 v = 2 := by rw [fillAt_apply, if_pos hv]
  have hvl : v ∉ l := fun h => by
    have := (hres.stamps.visit v h).1
    omega
  have hvT : v ∈ T ↔ v ∈ g.toSimple.nbhd (g.toSimple.componentOf (vset vs) x) := by
    rw [hres.mem_iff, ← hl]
    refine ⟨fun h => ⟨hvl, h.2⟩, fun h => ⟨⟨?_, ?_⟩, h.2⟩⟩
    · omega
    · simp [hv2]
  rw [← hvT]
  by_cases hT : v ∈ T
  · have := (hres.stamps.stamp v hT).2
    simp only [hv2, if_pos] at this
    exact iff_of_true (Option.some_inj.mp this).symm hT
  · refine iff_of_false ?_ hT
    rw [hres.stamps.rest v hvl hT, hv2]
    decide

/-- `extend2` tells whether the component of `x` is full. -/
theorem extend2_spec (hg : g.Valid) {pmc : List (Fin n)} (hx : x ∉ pmc) :
    ∃ b, extend2 g pmc x = some b ∧ (b = true ↔
      g.toSimple.IsFullComponent (vset pmc) (g.toSimple.componentOf (vset pmc) x)) := by
  obtain ⟨u₁, hdfs, hiff⟩ := dfs2_spec hg hx
  refine ⟨_, by rw [extend2, hdfs]; rfl, ?_⟩
  have hC := isComponent_componentOf (G := g.toSimple) (show x ∉ vset pmc from hx)
  rw [List.all_eq_true]
  constructor
  · intro h
    refine ⟨hC, Set.Subset.antisymm hC.nbhd_subset fun v hv => ?_⟩
    exact (hiff v hv).mp (decide_eq_true_iff.mp (h v hv))
  · intro h v hv
    exact decide_eq_true_iff.mpr ((hiff v hv).mpr (h.nbhd_eq.superset hv))

/-! ## Full components -/

/-- The state of `HasFullComponent`: the separator vertices have values from `2`
to `it`, and the components visited so far are not full. -/
structure FullInv (g : Graph n) (sep : List (Fin n)) (u : Fin n → ℕ) (it : ℕ) :
    Prop where
  sep_value : ∀ v ∈ sep, 1 < u v ∧ u v ≤ it
  other_value : ∀ v, v ∉ sep → u v ≤ 1
  marks : MarksComponents g (vset sep) (blocked u)
  not_full : ∀ v, v ∉ sep → u v ≠ 0 →
    g.toSimple.nbhd (g.toSimple.componentOf (vset sep) v) ≠ vset sep

theorem fullInv_fillAt (g : Graph n) (sep : List (Fin n)) :
    FullInv g sep (fillAt sep 2) 2 where
  sep_value := fun v hv => by simp [fillAt_apply, hv]
  other_value := fun v hv => by simp [fillAt_apply, hv]
  marks := by
    refine ⟨fun s hs => ?_, fun a b ha hab hb => ?_⟩
    · have hs' : s ∈ sep := hs
      simp [blocked, fillAt_apply, hs']
    · have hb' : b ∉ sep := hb
      simp [fillAt_apply, hb']
  not_full := fun v hv h => by simp [fillAt_apply, hv] at h

/-- One search of `HasFullComponent`: it counts the neighbourhood of a new
component. -/
theorem FullInv.step (hg : g.Valid) {sep : List (Fin n)} {u : Fin n → ℕ} {it : ℕ}
    {i : Fin n} (h : FullInv g sep u it) (hi : u i = 0) :
    ∃ u₁, dfs1 g i u (it + 1) =
        some (u₁, (g.toSimple.nbhd (g.toSimple.componentOf (vset sep) i)).ncard) ∧
      (∀ v, u₁ v = 0 → u v = 0 ∧ v ≠ i) ∧
      (g.toSimple.nbhd (g.toSimple.componentOf (vset sep) i) ≠ vset sep →
        FullInv g sep u₁ (it + 1)) := by
  obtain ⟨l, T, u₁, hdfs, hres⟩ := stampDfs_spec hg (stampRule_dfs1 (it + 1)) n u 0 i hi
    (ncard_unmarked_le _)
  obtain ⟨hcomp, hmarks⟩ := hres.dfs.isComponent h.marks (blocked_eq_false_iff.mpr hi)
  have hil : i ∈ l := (hres.dfs.mem_iff i).mpr (ReachIn.refl i)
  have hl : vset l = g.toSimple.componentOf (vset sep) i := hcomp.eq_componentOf hil
  have hstampable : ∀ w, Stampable
      (fun value => if 1 < value ∧ value < it + 1 then some (it + 1) else none) u w ↔
      w ∈ sep := by
    intro w
    constructor
    · rintro ⟨h0, hsome⟩
      by_contra hw
      have := h.other_value w hw
      simp only [show ¬1 < u w by omega, false_and, if_false] at hsome
      cases hsome
    · intro hw
      have := h.sep_value w hw
      refine ⟨by omega, ?_⟩
      simp only [show 1 < u w ∧ u w < it + 1 by omega, and_self, if_true,
        Option.isSome_some]
  have hT : T = g.toSimple.nbhd (g.toSimple.componentOf (vset sep) i) := by
    rw [← hl]
    ext w
    rw [hres.mem_iff, hstampable]
    constructor
    · rintro ⟨hw, hadj⟩
      exact ⟨fun hwl => hcomp.notMem w hwl hw, hadj⟩
    · intro hw
      exact ⟨hcomp.nbhd_subset hw, hw.2⟩
  refine ⟨u₁, by rw [dfs1, hdfs, hT, Nat.zero_add], fun v hv => ?_, fun hnot => ?_⟩
  · have hmarked := hres.dfs.marked v
    rw [blocked_eq_false_iff.mpr hv] at hmarked
    have hor := Bool.or_eq_false_iff.mp hmarked.symm
    refine ⟨blocked_eq_false_iff.mp hor.1, ?_⟩
    rintro rfl
    simp [hil] at hor
  · refine ⟨fun v hv => ?_, fun v hv => ?_, hmarks, fun v hv hne => ?_⟩
    · have hold := h.sep_value v hv
      have hvl : v ∉ l := fun hvl => hcomp.notMem v hvl hv
      by_cases hvT : v ∈ T
      · have := (hres.stamps.stamp v hvT).2
        simp only [show 1 < u v ∧ u v < it + 1 by omega, and_self, if_true,
          Option.some_inj] at this
        omega
      · rw [hres.stamps.rest v hvl hvT]
        omega
    · by_cases hvl : v ∈ l
      · exact (hres.stamps.visit v hvl).2.le
      · have hvT : v ∉ T := fun hvT =>
          hv ((hstampable v).mp (hres.stamps.stampable hvT))
        rw [hres.stamps.rest v hvl hvT]
        exact h.other_value v hv
    · by_cases hvl : v ∈ l
      · rw [← hcomp.eq_componentOf hvl, hl]
        exact hnot
      · have hvT : v ∉ T := fun hvT =>
          hv ((hstampable v).mp (hres.stamps.stampable hvT))
        rw [hres.stamps.rest v hvl hvT] at hne
        exact h.not_full v hv hne

theorem fullComponentLoop_spec (hg : g.Valid) {sep : List (Fin n)} (hnd : sep.Nodup)
    (is : List (Fin n)) (u : Fin n → ℕ) (it : ℕ) (h : FullInv g sep u it)
    (hall : ∀ v, u v = 0 → v ∈ is) :
    ∃ b, fullComponentLoop g sep is u it = some b ∧
      (b = true ↔ ∃ C, g.toSimple.IsFullComponent (vset sep) C) := by
  induction is generalizing u it with
  | nil =>
      refine ⟨false, rfl, iff_of_false (by simp) ?_⟩
      rintro ⟨C, hC⟩
      obtain ⟨v, hv⟩ := hC.isComponent.nonempty
      have hne : u v ≠ 0 := fun h0 => by simpa using hall v h0
      refine h.not_full v (hC.notMem hv) hne ?_
      rw [← hC.isComponent.eq_componentOf hv, hC.nbhd_eq]
  | cons i is ih =>
      rw [fullComponentLoop]
      by_cases hi : u i = 0
      · rw [if_pos hi]
        obtain ⟨u₁, hdfs, hzero, hinv⟩ := h.step hg hi
        have hisep : i ∉ sep := fun hmem => by
          have := h.sep_value i hmem
          omega
        have hC := isComponent_componentOf (G := g.toSimple) (show i ∉ vset sep from hisep)
        have hcard := ncard_vset hnd
        rw [hdfs, Option.bind_eq_bind, Option.bind_some]
        dsimp only
        rw [if_pos (hcard ▸ Set.ncard_le_ncard hC.nbhd_subset (Set.toFinite _)), ← hcard]
        by_cases hfull : g.toSimple.nbhd (g.toSimple.componentOf (vset sep) i) = vset sep
        · rw [if_pos (by rw [hfull])]
          exact ⟨true, rfl, iff_of_true rfl ⟨_, hC, hfull⟩⟩
        · rw [if_neg fun heq => hfull (Set.eq_of_subset_of_ncard_le hC.nbhd_subset heq.ge
            (Set.toFinite _))]
          refine ih u₁ (it + 1) (hinv hfull) fun v hv => ?_
          obtain ⟨hv0, hvi⟩ := hzero v hv
          exact (List.mem_cons.mp (hall v hv0)).resolve_left hvi
      · rw [if_neg hi]
        refine ih u it h fun v hv => (List.mem_cons.mp (hall v hv)).resolve_left ?_
        rintro rfl
        exact hi hv

theorem hasFullComponent_spec (hg : g.Valid) {sep : List (Fin n)} (hnd : sep.Nodup) :
    ∃ b, hasFullComponent g sep = some b ∧
      (b = true ↔ ∃ C, g.toSimple.IsFullComponent (vset sep) C) :=
  fullComponentLoop_spec hg hnd _ _ _ (fullInv_fillAt g sep)
    fun v _ => List.mem_finRange v

/-! ## The test for potential maximal cliques -/

theorem vset_filter_ne (pmc : List (Fin n)) (x : Fin n) :
    vset (pmc.filter fun y => decide (y ≠ x)) = vset pmc \ {x} := by
  ext y
  simp

/-- The loop of `IsPmc` checks that every vertex sees the others. -/
theorem isPmcLoop_spec (hg : g.Valid) (pmc xs : List (Fin n))
    (hsub : ∀ x ∈ xs, x ∈ pmc) :
    ∃ b, isPmcLoop g pmc xs = some b ∧ (b = true ↔ ∀ x ∈ xs, ∀ y ∈ pmc, x ≠ y →
      g.toSimple.Adj x y ∨ ∃ D, g.toSimple.IsComponent (vset pmc) D ∧
        x ∈ g.toSimple.nbhd D ∧ y ∈ g.toSimple.nbhd D) := by
  induction xs with
  | nil => exact ⟨true, rfl, by simp⟩
  | cons x xs ih =>
      have hx := hsub x (by simp)
      obtain ⟨b, hb, hiff⟩ := ih fun y hy => hsub y (by simp [hy])
      have hxf : x ∉ pmc.filter fun y => decide (y ≠ x) := by simp
      obtain ⟨u₁, hdfs, hu₁⟩ := dfs2_spec hg hxf
      rw [isPmcLoop, hdfs, Option.bind_eq_bind, Option.bind_some]
      rw [vset_filter_ne] at hu₁
      have hinsert : insert x (vset pmc \ {x}) = vset pmc := by
        rw [Set.insert_sdiff_singleton]
        exact Set.insert_eq_of_mem hx
      have hxS : x ∉ vset pmc \ {x} := fun h => h.2 rfl
      have hK := isComponent_componentOf (G := g.toSimple) hxS
      -- What `x` sees is what lies next to its component.
      have hsee : ∀ y ∈ pmc, x ≠ y → (u₁ y = 3 ↔ g.toSimple.Adj x y ∨
          ∃ D, g.toSimple.IsComponent (vset pmc) D ∧ x ∈ g.toSimple.nbhd D ∧
            y ∈ g.toSimple.nbhd D) := by
        intro y hy hxy
        rw [hu₁ y (List.mem_filter.mpr ⟨hy, by simpa using fun h => hxy h.symm⟩)]
        have hshared := hK.adj_or_shared (y := y) mem_componentOf_self
        have hback := mem_nbhd_componentOf (H := g.toSimple) hxS
          (show y ∈ vset pmc \ {x} from ⟨hy, fun h => hxy h.symm⟩)
        rw [hinsert] at hshared hback
        exact ⟨hshared, hback⟩
      by_cases hall : (pmc.all fun y => decide (y = x) || decide (u₁ y = 3)) = true
      · rw [if_pos hall]
        refine ⟨b, hb, hiff.trans ?_⟩
        rw [List.forall_mem_cons]
        refine (and_iff_right fun y hy hxy => ?_).symm
        have := List.all_eq_true.mp hall y hy
        rw [Bool.or_eq_true, decide_eq_true_iff, decide_eq_true_iff] at this
        exact (hsee y hy hxy).mp (this.resolve_left fun h => hxy h.symm)
      · rw [if_neg hall]
        refine ⟨false, rfl, iff_of_false (by simp) fun h => hall ?_⟩
        rw [List.all_eq_true]
        intro y hy
        rw [Bool.or_eq_true, decide_eq_true_iff, decide_eq_true_iff]
        by_cases hyx : y = x
        · exact Or.inl hyx
        · exact Or.inr ((hsee y hy fun h => hyx h.symm).mpr
            (h x (by simp) y hy fun h => hyx h.symm))

/-- `IsPmc` decides the local conditions. -/
theorem isPmc_spec (hg : g.Valid) {pmc : List (Fin n)} (hnd : pmc.Nodup) :
    ∃ b, isPmc g pmc = some b ∧ (b = true ↔ g.toSimple.IsPmc (vset pmc)) := by
  obtain ⟨full, hfull, hfulliff⟩ := hasFullComponent_spec hg hnd
  obtain ⟨b, hb, hiff⟩ := isPmcLoop_spec hg pmc pmc fun _ h => h
  rw [isPmc, hfull, Option.bind_eq_bind, Option.bind_some]
  cases full with
  | true =>
      refine ⟨false, rfl, iff_of_false (by simp) fun h => ?_⟩
      obtain ⟨C, hC⟩ := hfulliff.mp rfl
      exact h.no_full C hC.isComponent hC.nbhd_eq
  | false =>
      refine ⟨b, hb, hiff.trans ⟨fun h => ⟨fun C hC heq => ?_, h⟩, fun h => h.cliquish⟩⟩
      cases hfulliff.mpr ⟨C, hC, heq⟩

end CombEnumerator

end Triangulator
