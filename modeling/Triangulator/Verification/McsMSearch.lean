import Triangulator.GraphTheory.MinimalElimination
import Triangulator.Model.McsM
import Triangulator.Verification.Components

/-!
# The search of `McsM` from a chosen vertex

A vertex enters the bucket of the largest label on the best path to it.  A label is
raised when the vertex is touched for the first time and no label on the path reaches
it, so the raised vertices are those joined to the chosen vertex by a path of smaller
labels.
-/

namespace Triangulator

open SimpleGraph

variable {n : ℕ} {g : Graph n}

namespace Mcs

variable {rm : Fin n → Bool} {w : Fin n → ℕ} {x y z v : Fin n} {i j k : ℕ}
  {fill : List (Fin n × Fin n)} {zs ns : List (Fin n)} {t : Sweep n}
  {pending : Fin n → Fin n → Prop}

/-- The vertices not removed with a label below `k`. -/
def below (rm : Fin n → Bool) (w : Fin n → ℕ) (k : ℕ) : Set (Fin n) :=
  {u | rm u = false ∧ w u < k}

theorem below_mono (h : i ≤ k) : below rm w i ⊆ below rm w k :=
  fun _ hu => ⟨hu.1, hu.2.trans_le h⟩

/-- A vertex `v` of bucket `j` while bucket `i` is emptied. -/
structure Queued (g : Graph n) (rm : Fin n → Bool) (w : Fin n → ℕ) (x : Fin n) (i : ℕ)
    (rc : Fin n → Bool) (j : ℕ) (v : Fin n) : Prop where
  fresh : rm v = false
  reached : rc v = true
  label_le : w v ≤ j
  le : i ≤ j
  lt : j < n
  label_eq : i < j → w v = j
  joined : g.toSimple.JoinedBy (below rm w (j + 1)) x v

theorem Queued.mark {rc : Fin n → Bool} (h : Queued g rm w x i rc j v) :
    Queued g rm w x i (Function.update rc z true) j v where
  fresh := h.fresh
  reached := by
    by_cases hv : v = z
    · rw [hv, Function.update_self]
    · rw [Function.update_of_ne hv, h.reached]
  label_le := h.label_le
  le := h.le
  lt := h.lt
  label_eq := h.label_eq
  joined := h.joined

/-- The state while bucket `i` is emptied; the labels of `zs` are raised, and `pending`
holds of the edges still to be scanned. -/
structure SweepInv (g : Graph n) (rm : Fin n → Bool) (w : Fin n → ℕ) (x : Fin n)
    (fill : List (Fin n × Fin n)) (pending : Fin n → Fin n → Prop) (i : ℕ)
    (zs : List (Fin n)) (t : Sweep n) : Prop where
  fill_eq : t.fill = fill ++ zs.map fun z => (x, z)
  label_eq : ∀ v, t.label v = if v ∈ zs then w v + 1 else w v
  nodup : zs.Nodup
  raised : ∀ z ∈ zs, rm z = false ∧ t.rc z = true ∧ ¬g.toSimple.Adj x z ∧
    g.toSimple.JoinedBy (below rm w (w z)) x z
  spared : ∀ v, rm v = false → t.rc v = true → v ∉ zs → ¬g.toSimple.Adj x v →
    ¬g.toSimple.JoinedBy (below rm w (w v)) x v
  adj : ∀ v, rm v = false → g.toSimple.Adj x v → t.rc v = true
  queued : ∀ j, ∀ v ∈ t.reach j, Queued g rm w x i t.rc j v
  queue_nodup : ∀ j, (t.reach j).Nodup
  closed : ∀ v, rm v = false → t.rc v = true → (∃ j, v ∈ t.reach j) ∨
    ∀ z, rm z = false → g.toSimple.Adj v z → t.rc z = true ∨ pending v z
  found : ∀ v, rm v = false → g.toSimple.JoinedBy (below rm w i) x v → t.rc v = true

namespace SweepInv

/-- Fewer edges may be pending when the others lead to reached vertices. -/
theorem weaken {pending' : Fin n → Fin n → Prop}
    (h : SweepInv g rm w x fill pending i zs t)
    (hp : ∀ v z, rm z = false → pending v z → t.rc z = true ∨ pending' v z) :
    SweepInv g rm w x fill pending' i zs t :=
  { h with
    closed := by
      intro v hv hrc
      rcases h.closed v hv hrc with hq | hall
      · exact Or.inl hq
      · right
        intro z hz hadj
        rcases hall z hz hadj with hrz | hpend
        · exact Or.inl hrz
        · exact hp v z hz hpend }

/-- An unreached vertex enters bucket `j`. -/
theorem closed_push (h : SweepInv g rm w x fill pending i zs t) (v : Fin n)
    (hv : rm v = false) (hrc : Function.update t.rc z true v = true) :
    (∃ k, v ∈ Function.update t.reach j (z :: t.reach j) k) ∨
      ∀ u, rm u = false → g.toSimple.Adj v u →
        Function.update t.rc z true u = true ∨ pending v u := by
  by_cases hvz : v = z
  · exact Or.inl ⟨j, by simp [hvz]⟩
  rw [Function.update_of_ne hvz] at hrc
  rcases h.closed v hv hrc with ⟨k, hk⟩ | hall
  · left
    refine ⟨k, ?_⟩
    by_cases hkj : k = j
    · subst hkj
      simp [hk]
    · rwa [Function.update_of_ne hkj]
  · right
    intro u hu hadj
    by_cases huz : u = z
    · rw [huz, Function.update_self]
      exact Or.inl rfl
    · rw [Function.update_of_ne huz]
      exact hall u hu hadj

theorem queued_push (h : SweepInv g rm w x fill pending i zs t)
    (hz : Queued g rm w x i (Function.update t.rc z true) j z) :
    ∀ k, ∀ v ∈ Function.update t.reach j (z :: t.reach j) k,
      Queued g rm w x i (Function.update t.rc z true) k v := by
  intro k v hv
  by_cases hk : k = j
  · subst hk
    rw [Function.update_self, List.mem_cons] at hv
    rcases hv with rfl | hv
    · exact hz
    · exact (h.queued k v hv).mark
  · rw [Function.update_of_ne hk] at hv
    exact (h.queued k v hv).mark

theorem nodup_push (h : SweepInv g rm w x fill pending i zs t) (hz : t.rc z = false) :
    ∀ k, (Function.update t.reach j (z :: t.reach j) k).Nodup := by
  intro k
  by_cases hk : k = j
  · subst hk
    rw [Function.update_self, List.nodup_cons]
    refine ⟨fun hmem => ?_, h.queue_nodup k⟩
    have hrc := (h.queued k z hmem).reached
    rw [hz] at hrc
    cases hrc
  · rw [Function.update_of_ne hk]
    exact h.queue_nodup k

/-- A neighbour of a vertex of the bucket is touched. -/
theorem touch (h : SweepInv g rm w x fill pending i zs t) (hi : i < n)
    (hlabel : ∀ v, rm v = false → w v < n) (hy : rm y = false) (hyi : w y ≤ i)
    (hjoin : g.toSimple.JoinedBy (below rm w (i + 1)) x y) (hyz : g.toSimple.Adj y z)
    (hpend : ∀ v u, pending v u → v = y) :
    ∃ zs', SweepInv g rm w x fill (fun v u => pending v u ∧ u ≠ z) i zs'
      (touch rm x i t z) := by
  rw [Mcs.touch]
  by_cases hskip : (rm z || t.rc z) = true
  · rw [if_pos hskip]
    refine ⟨zs, h.weaken fun v u hu hvu => ?_⟩
    by_cases huz : u = z
    · rw [huz] at hu ⊢
      rw [hu, Bool.false_or] at hskip
      exact Or.inl hskip
    · exact Or.inr ⟨hvu, huz⟩
  rw [if_neg hskip]
  rw [Bool.not_eq_true, Bool.or_eq_false_iff] at hskip
  obtain ⟨hrm, hrc⟩ := hskip
  have hzs : z ∉ zs := by
    intro hmem
    have hrz := (h.raised z hmem).2.1
    rw [hrc] at hrz
    cases hrz
  have hzw : t.label z = w z := by rw [h.label_eq, if_neg hzs]
  have hnadj : ¬g.toSimple.Adj x z := by
    intro hadj
    have hrz := h.adj z hrm hadj
    rw [hrc] at hrz
    cases hrz
  -- The path to `y` and the edge from `y` join `z` to `x` through labels up to `i`.
  have hxz : g.toSimple.JoinedBy (below rm w (i + 1)) x z := by
    have hyz' : g.toSimple.JoinedBy (below rm w (i + 1)) y z := Or.inl hyz
    apply (hjoin.trans hyz').mono
    rintro u (rfl | hu)
    · exact ⟨hy, Nat.lt_succ_of_le hyi⟩
    · exact hu
  have hmark : ∀ v, t.rc v = true → Function.update t.rc z true v = true := by
    intro v hv
    by_cases hvz : v = z
    · rw [hvz, Function.update_self]
    · rw [Function.update_of_ne hvz, hv]
  have hpush : ∀ j, SweepInv g rm w x fill pending i zs t →
      ∀ v, rm v = false → Function.update t.rc z true v = true →
      (∃ k, v ∈ Function.update t.reach j (z :: t.reach j) k) ∨
        ∀ u, rm u = false → g.toSimple.Adj v u →
          Function.update t.rc z true u = true ∨ (pending v u ∧ u ≠ z) := by
    intro j hinv v hv hvrc
    rcases hinv.closed_push (j := j) v hv hvrc with hq | hall
    · exact Or.inl hq
    · right
      intro u hu hadj
      by_cases huz : u = z
      · rw [huz, Function.update_self]
        exact Or.inl rfl
      · exact (hall u hu hadj).imp_right fun hvu => ⟨hvu, huz⟩
  have hfound : ∀ v, rm v = false → g.toSimple.JoinedBy (below rm w i) x v →
      Function.update t.rc z true v = true :=
    fun v hv hvj => hmark v (h.found v hv hvj)
  have hne : ∀ v, Function.update t.rc z true v = true → v ≠ z → t.rc v = true := by
    intro v hv hvz
    rwa [Function.update_of_ne hvz] at hv
  rw [hzw]
  by_cases hlt : i < w z
  · rw [if_pos hlt]
    refine ⟨zs ++ [z], ?_⟩
    have hq : Queued g rm w x i (Function.update t.rc z true) (w z) z :=
      ⟨hrm, Function.update_self .., le_rfl, hlt.le, hlabel z hrm, fun _ => rfl,
        hxz.mono (below_mono (Nat.succ_le_succ hlt.le))⟩
    exact
      { fill_eq := by rw [h.fill_eq, List.map_append, List.append_assoc]; rfl
        label_eq := by
          intro v
          dsimp only
          by_cases hvz : v = z
          · subst hvz
            simp
          · rw [Function.update_of_ne hvz, h.label_eq]
            simp [hvz]
        nodup := by
          rw [List.nodup_append']
          exact ⟨h.nodup, List.nodup_singleton z, by simpa using hzs⟩
        raised := by
          intro v hv
          rcases List.mem_append.mp hv with hv | hv
          · obtain ⟨h1, h2, h3⟩ := h.raised v hv
            exact ⟨h1, hmark v h2, h3⟩
          · obtain rfl := List.mem_singleton.mp hv
            exact ⟨hrm, Function.update_self .., hnadj, hxz.mono (below_mono hlt)⟩
        spared := by
          intro v hv hvrc hvs hvadj
          rw [List.mem_append, List.mem_singleton, not_or] at hvs
          exact h.spared v hv (hne v hvrc hvs.2) hvs.1 hvadj
        adj := fun v hv hadj => hmark v (h.adj v hv hadj)
        queued := h.queued_push hq
        queue_nodup := h.nodup_push hrc
        closed := hpush (w z) h
        found := hfound }
  · rw [if_neg hlt]
    refine ⟨zs, ?_⟩
    have hq : Queued g rm w x i (Function.update t.rc z true) i z :=
      ⟨hrm, Function.update_self .., not_lt.mp hlt, le_rfl, hi, fun h => absurd h
        (lt_irrefl i), hxz⟩
    exact
      { fill_eq := h.fill_eq
        label_eq := h.label_eq
        nodup := h.nodup
        raised := fun v hv => ⟨(h.raised v hv).1, hmark v (h.raised v hv).2.1,
          (h.raised v hv).2.2⟩
        spared := by
          intro v hv hvrc hvs hvadj
          by_cases hvz : v = z
          · -- A path of smaller labels would have been found in an earlier bucket.
            subst hvz
            intro hlow
            have hrz := h.found v hv (hlow.mono (below_mono (not_lt.mp hlt)))
            rw [hrc] at hrz
            cases hrz
          · exact h.spared v hv (hne v hvrc hvz) hvs hvadj
        adj := fun v hv hadj => hmark v (h.adj v hv hadj)
        queued := h.queued_push hq
        queue_nodup := h.nodup_push hrc
        closed := hpush i h
        found := hfound }

/-- The neighbours of a vertex of the bucket are touched. -/
theorem touch_all (hi : i < n) (hlabel : ∀ v, rm v = false → w v < n)
    (hy : rm y = false) (hyi : w y ≤ i)
    (hjoin : g.toSimple.JoinedBy (below rm w (i + 1)) x y)
    (hns : ∀ z ∈ ns, g.toSimple.Adj y z)
    (h : SweepInv g rm w x fill (fun v u => v = y ∧ u ∈ ns) i zs t) :
    ∃ zs', SweepInv g rm w x fill (fun _ _ => False) i zs'
      (ns.foldl (Mcs.touch rm x i) t) := by
  induction ns generalizing zs t with
  | nil => exact ⟨zs, h.weaken fun v u _ hvu => absurd hvu.2 List.not_mem_nil⟩
  | cons z ns ih =>
      obtain ⟨zs', h'⟩ := h.touch hi hlabel hy hyi hjoin (hns z (by simp))
        fun v u hvu => hvu.1
      apply ih fun u hu => hns u (List.mem_cons_of_mem z hu)
      apply h'.weaken
      rintro v u - ⟨⟨rfl, hu⟩, huz⟩
      exact Or.inr ⟨rfl, (List.mem_cons.mp hu).resolve_left huz⟩

/-- The top of the bucket is taken out. -/
theorem pop (hg : g.Valid) {rest : List (Fin n)} (hpop : t.reach i = y :: rest)
    (h : SweepInv g rm w x fill (fun _ _ => False) i zs t) :
    SweepInv g rm w x fill (fun v u => v = y ∧ u ∈ g.adjList y) i zs
      { t with reach := Function.update t.reach i rest } where
  fill_eq := h.fill_eq
  label_eq := h.label_eq
  nodup := h.nodup
  raised := h.raised
  spared := h.spared
  adj := h.adj
  queued := by
    intro k v hv
    dsimp only at hv
    apply h.queued k v
    by_cases hk : k = i
    · subst hk
      rw [Function.update_self] at hv
      rw [hpop]
      exact List.mem_cons_of_mem y hv
    · rwa [Function.update_of_ne hk] at hv
  queue_nodup := by
    intro k
    dsimp only
    by_cases hk : k = i
    · subst hk
      have hnd := h.queue_nodup k
      rw [hpop] at hnd
      rw [Function.update_self]
      exact (List.nodup_cons.mp hnd).2
    · rw [Function.update_of_ne hk]
      exact h.queue_nodup k
  closed := by
    intro v hv hrc
    dsimp only at hrc ⊢
    by_cases hvy : v = y
    · subst hvy
      right
      intro u _ hvu
      exact Or.inr ⟨rfl, hg.mem_adjList_iff.mpr hvu⟩
    · rcases h.closed v hv hrc with ⟨k, hk⟩ | hall
      · left
        refine ⟨k, ?_⟩
        by_cases hki : k = i
        · subst hki
          rw [hpop, List.mem_cons] at hk
          rw [Function.update_self]
          exact hk.resolve_left hvy
        · rwa [Function.update_of_ne hki]
      · right
        intro u hu hvu
        exact Or.inl ((hall u hu hvu).resolve_right not_false)
  found := h.found

end SweepInv

/-- The unreached vertices and the entries of the bucket. -/
def load (i : ℕ) (t : Sweep n) : ℕ :=
  (Finset.univ.filter fun v => t.rc v = false).card + (t.reach i).length

theorem card_unreached_mark {rc : Fin n → Bool} (hz : rc z = false) :
    (Finset.univ.filter fun v => Function.update rc z true v = false).card + 1 =
      (Finset.univ.filter fun v => rc v = false).card := by
  have hset : (Finset.univ.filter fun v => Function.update rc z true v = false) =
      (Finset.univ.filter fun v => rc v = false).erase z := by
    ext v
    by_cases hv : v = z
    · simp [hv]
    · simp [hv]
  rw [hset, Finset.card_erase_add_one]
  simpa using hz

theorem load_touch (rm : Fin n → Bool) (x : Fin n) (i : ℕ) (t : Sweep n) (z : Fin n) :
    load i (touch rm x i t z) ≤ load i t := by
  rw [touch]
  by_cases hskip : (rm z || t.rc z) = true
  · rw [if_pos hskip]
  rw [if_neg hskip]
  rw [Bool.not_eq_true, Bool.or_eq_false_iff] at hskip
  have hcard := card_unreached_mark hskip.2
  by_cases hlt : i < t.label z
  · rw [if_pos hlt, load, load]
    dsimp only
    rw [Function.update_of_ne hlt.ne]
    omega
  · rw [if_neg hlt, load, load]
    dsimp only
    rw [Function.update_self, List.length_cons]
    omega

theorem load_touch_all (rm : Fin n → Bool) (x : Fin n) (i : ℕ) (ns : List (Fin n))
    (t : Sweep n) : load i (ns.foldl (touch rm x i) t) ≤ load i t := by
  induction ns generalizing t with
  | nil => exact le_rfl
  | cons z ns ih => exact (ih _).trans (load_touch rm x i t z)

/-- A bucket is emptied. -/
theorem drain_spec (hg : g.Valid) (hi : i < n) (hlabel : ∀ v, rm v = false → w v < n)
    (fuel : ℕ) (hload : load i t ≤ fuel)
    (h : SweepInv g rm w x fill (fun _ _ => False) i zs t) :
    ∃ t' zs', drain g rm x i fuel t = some t' ∧ t'.reach i = [] ∧
      SweepInv g rm w x fill (fun _ _ => False) i zs' t' := by
  induction fuel generalizing t zs with
  | zero =>
      have hempty : t.reach i = [] := by
        rw [load] at hload
        exact List.length_eq_zero_iff.mp (by omega)
      exact ⟨t, zs, by rw [drain, hempty], hempty, h⟩
  | succ fuel ih =>
      cases hpop : t.reach i with
      | nil => exact ⟨t, zs, by rw [drain, hpop], hpop, h⟩
      | cons y rest =>
          have hy := h.queued i y (by rw [hpop]; exact List.mem_cons_self)
          obtain ⟨zs', h'⟩ := SweepInv.touch_all hi hlabel hy.fresh hy.label_le hy.joined
            (fun z hz => hg.mem_adjList_iff.mp hz) (h.pop hg hpop)
          rw [drain, hpop]
          apply ih _ h'
          apply (load_touch_all rm x i _ _).trans
          rw [load, hpop, List.length_cons] at hload
          rw [load]
          dsimp only
          rw [Function.update_self]
          omega

/-- An empty bucket is left behind. -/
theorem SweepInv.advance (h : SweepInv g rm w x fill (fun _ _ => False) i zs t)
    (hempty : t.reach i = []) :
    SweepInv g rm w x fill (fun _ _ => False) (i + 1) zs t :=
  { h with
    queued := by
      intro j v hv
      have hq := h.queued j v hv
      have hji : j ≠ i := by
        rintro rfl
        rw [hempty] at hv
        exact List.not_mem_nil hv
      have hij : i < j := lt_of_le_of_ne hq.le hji.symm
      exact ⟨hq.fresh, hq.reached, hq.label_le, hij, hq.lt, fun _ => hq.label_eq hij,
        hq.joined⟩
    found := by
      -- Everything reached through labels up to `i` has been scanned.
      intro v hv hjoin
      obtain ⟨y, hxy, hyv⟩ := joinedBy_iff_reachIn.mp hjoin
      have hstep : ∀ a, a = x ∨ (a ∈ below rm w (i + 1) ∧ t.rc a = true) →
          ∀ b, rm b = false → g.toSimple.Adj a b → t.rc b = true := by
        rintro a (rfl | ⟨ha, hrc⟩) b hb hab
        · exact h.adj b hb hab
        · rcases h.closed a ha.1 hrc with ⟨j, hj⟩ | hall
          · have hq := h.queued j a hj
            have hji : j ≠ i := by
              rintro rfl
              rw [hempty] at hj
              exact List.not_mem_nil hj
            have hwj := hq.label_eq (lt_of_le_of_ne hq.le hji.symm)
            have hle := hq.le
            have hlt := ha.2
            omega
          · exact (hall b hb hab).resolve_right not_false
      have hy := hxy.mem_of_closed
        (A := {a | a = x ∨ (a ∈ below rm w (i + 1) ∧ t.rc a = true)}) (Or.inl rfl)
        fun a ha b hb hab => Or.inr ⟨hb, hstep a ha b hb.1 hab⟩
      exact hstep y hy v hv hyv }

/-- All buckets are emptied. -/
theorem drain_all_spec (hg : g.Valid) (hlabel : ∀ v, rm v = false → w v < n)
    (k : ℕ) (hik : i + k = n)
    (h : SweepInv g rm w x fill (fun _ _ => False) i zs t) :
    ∃ t' zs', (List.range' i k).foldlM (fun t i => drain g rm x i n t) t = some t' ∧
      SweepInv g rm w x fill (fun _ _ => False) n zs' t' := by
  induction k generalizing i t zs with
  | zero =>
      obtain rfl : i = n := by omega
      exact ⟨t, zs, rfl, h⟩
  | succ k ih =>
      have hload : load i t ≤ n := by
        -- The entries of a bucket are distinct reached vertices.
        have hsub : (t.reach i).toFinset ⊆ Finset.univ.filter fun v => t.rc v = true := by
          intro v hv
          rw [List.mem_toFinset] at hv
          simpa using (h.queued i v hv).reached
        have hle := Finset.card_le_card hsub
        rw [List.toFinset_card_of_nodup (h.queue_nodup i)] at hle
        have hcard := Finset.card_filter_add_card_filter_not (s := (Finset.univ : Finset (Fin n)))
          fun v => t.rc v = false
        simp only [Bool.not_eq_false, Finset.card_univ, Fintype.card_fin] at hcard
        rw [load]
        omega
      obtain ⟨t', zs', hdrain, hempty, h'⟩ :=
        drain_spec hg (by omega) hlabel n hload h
      obtain ⟨t'', zs'', hall, h''⟩ := ih (by omega) (h'.advance hempty)
      refine ⟨t'', zs'', ?_, h''⟩
      rw [List.range'_succ, List.foldlM_cons, hdrain, Option.bind_eq_bind, Option.bind_some]
      exact hall

/-! ## The whole search -/

/-- The state after the neighbours of the list have entered their buckets. -/
structure Started (rm : Fin n → Bool) (w : Fin n → ℕ) (x : Fin n)
    (fill : List (Fin n × Fin n)) (ns : List (Fin n)) (t : Sweep n) : Prop where
  label_eq : t.label = w
  fill_eq : t.fill = fill
  reached_iff : ∀ v, t.rc v = true ↔ v = x ∨ (v ∈ ns ∧ rm v = false)
  mem_reach : ∀ j v, v ∈ t.reach j ↔ v ∈ ns ∧ rm v = false ∧ w v = j
  nodup : ∀ j, (t.reach j).Nodup

theorem started_neighbors (hw : t.label = w) (hfill : t.fill = fill)
    (hreach : ∀ j, t.reach j = []) (hnd : ns.Nodup) :
    Started rm w x fill ns (ns.foldl (startNeighbor rm)
      { t with rc := Function.update (fun _ => false) x true }) := by
  induction ns using List.reverseRecOn with
  | nil =>
      refine ⟨hw, hfill, fun v => ?_, fun j v => ?_, fun j => ?_⟩
      · by_cases hv : v = x
        · simp [hv]
        · simp [hv]
      · simp [hreach j]
      · simp [hreach j]
  | append_singleton ns y ih =>
      rw [List.nodup_append'] at hnd
      have hy : y ∉ ns := fun h => hnd.2.2 h (by simp)
      have h := ih hnd.1
      rw [List.foldl_append]
      set t₁ := ns.foldl (startNeighbor rm)
        { t with rc := Function.update (fun _ => false) x true }
      change Started rm w x fill (ns ++ [y]) (startNeighbor rm t₁ y)
      rw [startNeighbor]
      by_cases hrm : rm y = true
      · rw [if_pos hrm]
        have hiff : ∀ v, (v ∈ ns ++ [y] ∧ rm v = false) ↔ (v ∈ ns ∧ rm v = false) := by
          intro v
          rw [List.mem_append, List.mem_singleton]
          constructor
          · rintro ⟨hv | rfl, hvrm⟩
            · exact ⟨hv, hvrm⟩
            · rw [hrm] at hvrm
              cases hvrm
          · exact fun hv => ⟨Or.inl hv.1, hv.2⟩
        refine ⟨h.label_eq, h.fill_eq, fun v => ?_, fun j v => ?_, h.nodup⟩
        · rw [h.reached_iff, hiff]
        · rw [h.mem_reach, ← and_assoc, ← hiff, and_assoc]
      · rw [if_neg hrm, h.label_eq]
        rw [Bool.not_eq_true] at hrm
        refine ⟨rfl, h.fill_eq, fun v => ?_, fun j v => ?_, fun j => ?_⟩
        · dsimp only
          by_cases hv : v = y
          · subst hv
            simp [hrm]
          · rw [Function.update_of_ne hv, h.reached_iff]
            simp [hv]
        · dsimp only
          by_cases hj : j = w y
          · subst hj
            rw [Function.update_self, List.mem_cons, h.mem_reach]
            by_cases hv : v = y
            · subst hv
              simp [hrm]
            · simp [hv]
          · rw [Function.update_of_ne hj, h.mem_reach]
            constructor
            · exact fun hv => ⟨List.mem_append_left _ hv.1, hv.2⟩
            · rintro ⟨hv, hvrm, rfl⟩
              refine ⟨(List.mem_append.mp hv).resolve_right fun hvy => ?_, hvrm, rfl⟩
              exact hj (by rw [List.mem_singleton.mp hvy])
        · dsimp only
          by_cases hj : j = w y
          · subst hj
            rw [Function.update_self, List.nodup_cons]
            exact ⟨fun hmem => hy ((h.mem_reach _ y).mp hmem).1, h.nodup _⟩
          · rw [Function.update_of_ne hj]
            exact h.nodup j

/-- The search starts with the neighbours of `x` in their buckets. -/
theorem Started.sweepInv (hg : g.Valid) (hlabel : ∀ v, rm v = false → w v < n)
    (hx : rm x = true) (h : Started rm w x fill (g.adjList x) t) :
    SweepInv g rm w x fill (fun _ _ => False) 0 [] t where
  fill_eq := by simp [h.fill_eq]
  label_eq := by simp [h.label_eq]
  nodup := List.nodup_nil
  raised := by simp
  spared := by
    intro v hv hrc _ hnadj
    rcases (h.reached_iff v).mp hrc with rfl | hmem
    · rw [hx] at hv
      cases hv
    · exact absurd (hg.mem_adjList_iff.mp hmem.1) hnadj
  adj := by
    intro v hv hadj
    exact (h.reached_iff v).mpr (Or.inr ⟨hg.mem_adjList_iff.mpr hadj, hv⟩)
  queued := by
    intro j v hv
    obtain ⟨hmem, hrm, rfl⟩ := (h.mem_reach j v).mp hv
    exact ⟨hrm, (h.reached_iff v).mpr (Or.inr ⟨hmem, hrm⟩), le_rfl, Nat.zero_le _,
      hlabel v hrm, fun _ => rfl, Or.inl (hg.mem_adjList_iff.mp hmem)⟩
  queue_nodup := h.nodup
  closed := by
    intro v hv hrc
    rcases (h.reached_iff v).mp hrc with rfl | hmem
    · rw [hx] at hv
      cases hv
    · exact Or.inl ⟨w v, (h.mem_reach _ v).mpr ⟨hmem.1, hv, rfl⟩⟩
  found := by
    rintro v hv (hadj | ⟨C, hC, -, ⟨c, hc, -⟩, -⟩)
    · exact (h.reached_iff v).mpr (Or.inr ⟨hg.mem_adjList_iff.mpr hadj, hv⟩)
    · exact absurd (hC hc).2 (Nat.not_lt_zero _)

/-- What the search from `x` leaves: the labels of `zs` are raised and the buckets are
empty. -/
structure Searched (g : Graph n) (rm : Fin n → Bool) (w : Fin n → ℕ) (x : Fin n)
    (fill : List (Fin n × Fin n)) (zs : List (Fin n)) (t : Sweep n) : Prop where
  fill_eq : t.fill = fill ++ zs.map fun z => (x, z)
  label_eq : ∀ v, t.label v = if v ∈ zs then w v + 1 else w v
  nodup : zs.Nodup
  mem_iff : ∀ z, z ∈ zs ↔ rm z = false ∧ ¬g.toSimple.Adj x z ∧
    g.toSimple.JoinedBy (below rm w (w z)) x z
  reach_empty : ∀ j, t.reach j = []

/-- The search raises the labels of the vertices joined to `x` by smaller labels. -/
theorem sweep_spec (hg : g.Valid) (hlabel : ∀ v, rm v = false → w v < n)
    (hx : rm x = true) (hw : t.label = w) (hfill : t.fill = fill)
    (hreach : ∀ j, t.reach j = []) :
    ∃ t' zs, sweep g rm x t = some t' ∧ Searched g rm w x fill zs t' := by
  have hstart : Started rm w x fill (g.adjList x) ((g.adjList x).foldl (startNeighbor rm)
      { t with rc := Function.update (fun _ => false) x true }) :=
    started_neighbors hw hfill hreach (hg.nodup_adjList x)
  obtain ⟨t', zs, hrun, h⟩ := drain_all_spec hg hlabel n (Nat.zero_add n)
    (hstart.sweepInv hg hlabel hx)
  refine ⟨t', zs, ?_, h.fill_eq, h.label_eq, h.nodup, fun z => ?_, fun j => ?_⟩
  · rw [sweep, List.range_eq_range']
    exact hrun
  · constructor
    · intro hz
      obtain ⟨hrm, -, hjoin⟩ := h.raised z hz
      exact ⟨hrm, hjoin⟩
    · rintro ⟨hrm, hnadj, hjoin⟩
      have hrc := h.found z hrm (hjoin.mono (below_mono (hlabel z hrm).le))
      by_contra hz
      exact h.spared z hrm hrc hz hnadj hjoin
  · rw [List.eq_nil_iff_forall_not_mem]
    intro v hv
    have hq := h.queued j v hv
    exact absurd hq.lt (not_lt.mpr hq.le)

end Mcs

end Triangulator
