import Triangulator.GraphTheory.MinimalElimination
import Triangulator.Model.Mcs
import Triangulator.Verification.Components

/-!
# Maximum cardinality search computes a maximum cardinality order

The stacks may hold outdated entries, but every vertex that is not removed has
an entry in the stack of its label and none in a higher one.
-/

namespace Triangulator

open SimpleGraph

variable {n : ℕ} {g : Graph n}

namespace Mcs

variable {s : State n} {order : List (Fin n)} {x y v : Fin n}

/-- The state after the vertices of `order` have been chosen. -/
structure Inv (g : Graph n) (order : List (Fin n)) (s : State n) : Prop where
  rm_iff : ∀ v, s.rm v = true ↔ v ∈ order
  label_eq : ∀ v, v ∉ order → s.label v = g.toSimple.degreeIn order v
  mem_labels : ∀ v, v ∉ order → v ∈ s.labels (s.label v)
  le_label : ∀ k, ∀ v ∈ s.labels k, v ∉ order → k ≤ s.label v
  label_le : ∀ v, v ∉ order → s.label v ≤ s.maxLabel

theorem inv_init (g : Graph n) : Inv g [] (State.init n) where
  rm_iff := by simp [State.init]
  label_eq := by simp [State.init, degreeIn]
  mem_labels := by simp [State.init]
  le_label := by
    intro k v hv _
    by_cases hk : k = 0
    · rw [hk]
      exact Nat.zero_le _
    · rw [State.init] at hv
      simp [hk] at hv
  label_le := by simp [State.init]

/-- What remains when the outdated entries on top of a stack are dropped. -/
theorem dropWhile_spec (rm : Fin n → Bool) (l : List (Fin n)) :
    (∀ v, rm v = false → (v ∈ l.dropWhile rm ↔ v ∈ l)) ∧
      ∀ x rest, l.dropWhile rm = x :: rest → rm x = false := by
  induction l with
  | nil => simp
  | cons a l ih =>
      by_cases ha : rm a = true
      · rw [List.dropWhile_cons_of_pos ha]
        refine ⟨fun v hv => ?_, ih.2⟩
        rw [ih.1 v hv, List.mem_cons]
        refine (or_iff_right ?_).symm
        rintro rfl
        rw [ha] at hv
        cases hv
      · rw [List.dropWhile_cons_of_neg ha]
        refine ⟨fun v _ => Iff.rfl, fun x rest heq => ?_⟩
        obtain ⟨rfl, -⟩ := List.cons.inj heq
        exact Bool.not_eq_true _ ▸ ha

/-- What is popped: a vertex that is not removed, from the highest stack with
such a vertex, while the other vertices keep their entries. -/
structure Popped (rm : Fin n → Bool) (labels : ℕ → List (Fin n)) (m : ℕ)
    (p : Fin n × ℕ × (ℕ → List (Fin n))) : Prop where
  fresh : rm p.1 = false
  mem : p.1 ∈ labels p.2.1
  highest : ∀ k ≤ m, ∀ v ∈ labels k, rm v = false → k ≤ p.2.1
  kept : ∀ k, ∀ v ∈ labels k, rm v = false → v ≠ p.1 → v ∈ p.2.2 k
  subset : ∀ k, ∀ v ∈ p.2.2 k, v ∈ labels k

/-- A popped stack top. -/
theorem popped_of_dropWhile {rm : Fin n → Bool} {labels : ℕ → List (Fin n)} {m k : ℕ}
    {rest : List (Fin n)} (hdrop : (labels k).dropWhile rm = x :: rest)
    (hk : ∀ j ≤ m, ∀ v ∈ labels j, rm v = false → j ≤ k) :
    Popped rm labels m (x, k, Function.update labels k rest) := by
  obtain ⟨hmem, hfresh⟩ := dropWhile_spec rm (labels k)
  have hx := hfresh x rest hdrop
  have hsub : ∀ v ∈ x :: rest, v ∈ labels k := fun v hv =>
    (List.dropWhile_sublist rm).mem (hdrop ▸ hv)
  refine ⟨hx, hsub x (by simp), hk, fun j v hv hrm hvx => ?_, fun j v hv => ?_⟩
  · dsimp only at hvx ⊢
    by_cases hjk : j = k
    · subst hjk
      rw [← hmem v hrm, hdrop, List.mem_cons] at hv
      simpa using hv.resolve_left hvx
    · simpa [Function.update_of_ne hjk] using hv
  · dsimp only at hv
    by_cases hjk : j = k
    · subst hjk
      rw [Function.update_self] at hv
      exact hsub v (by simp [hv])
    · simpa [Function.update_of_ne hjk] using hv

theorem popMax_spec (rm : Fin n → Bool) (m : ℕ) (labels : ℕ → List (Fin n))
    (hex : ∃ k ≤ m, ∃ v ∈ labels k, rm v = false) :
    ∃ p, popMax rm m labels = some p ∧ Popped rm labels m p := by
  induction m generalizing labels with
  | zero =>
      obtain ⟨k, hk, v, hv, hrm⟩ := hex
      obtain rfl := Nat.le_zero.mp hk
      cases hdrop : (labels 0).dropWhile rm with
      | nil =>
          rw [← (dropWhile_spec rm (labels 0)).1 v hrm, hdrop] at hv
          cases hv
      | cons x rest =>
          exact ⟨_, by rw [popMax, hdrop],
            popped_of_dropWhile hdrop fun j hj _ _ _ => hj⟩
  | succ m ih =>
      cases hdrop : (labels (m + 1)).dropWhile rm with
      | cons x rest =>
          exact ⟨_, by rw [popMax, hdrop],
            popped_of_dropWhile hdrop fun j hj _ _ _ => hj⟩
      | nil =>
          -- The stack holds only removed vertices.
          have hnone : ∀ v ∈ labels (m + 1), rm v ≠ false := by
            intro v hv hrm
            rw [← (dropWhile_spec rm (labels (m + 1))).1 v hrm, hdrop] at hv
            cases hv
          have hold : ∀ k v, rm v = false →
              (v ∈ Function.update labels (m + 1) [] k ↔ v ∈ labels k) := by
            intro k v hrm
            by_cases hk : k = m + 1
            · subst hk
              simpa using fun hv => hnone v hv hrm
            · rw [Function.update_of_ne hk]
          have hlow : ∀ k ≤ m + 1, ∀ v ∈ labels k, rm v = false → k ≤ m := by
            intro k hk v hv hrm
            by_contra hkm
            obtain rfl : k = m + 1 := by omega
            exact hnone v hv hrm
          obtain ⟨k, hk, v, hv, hrm⟩ := hex
          obtain ⟨p, hp, h⟩ := ih (Function.update labels (m + 1) [])
            ⟨k, hlow k hk v hv hrm, v, (hold k v hrm).mpr hv, hrm⟩
          refine ⟨p, by rw [popMax, hdrop]; exact hp, h.fresh,
            (hold _ _ h.fresh).mp h.mem, fun j hj w hw hrw => ?_,
            fun j w hw hrw hne => ?_, fun j w hw => ?_⟩
          · exact h.highest j (hlow j hj w hw hrw) w ((hold j w hrw).mpr hw) hrw
          · exact h.kept j w ((hold j w hrw).mpr hw) hrw hne
          · have hmem := h.subset j w hw
            by_cases hjm : j = m + 1
            · subst hjm
              simp at hmem
            · rwa [Function.update_of_ne hjm] at hmem

/-- The state while the neighbours of a chosen vertex are scanned. -/
structure Scanned (s : State n) (ns : List (Fin n)) (s' : State n) : Prop where
  rm : s'.rm = s.rm
  label_eq : ∀ v, s.rm v = false →
    s'.label v = s.label v + if v ∈ ns then 1 else 0
  labels : ∀ k, ∀ v ∈ s.labels k, v ∈ s'.labels k
  mem_labels : ∀ v ∈ ns, s.rm v = false → v ∈ s'.labels (s.label v + 1)
  new : ∀ k, ∀ v ∈ s'.labels k,
    v ∈ s.labels k ∨ (v ∈ ns ∧ s.rm v = false ∧ k = s.label v + 1)
  maxLabel : s.maxLabel ≤ s'.maxLabel ∧
    ∀ v ∈ ns, s.rm v = false → s.label v + 1 ≤ s'.maxLabel

theorem scanned_neighbors (s : State n) (ns : List (Fin n)) (hnd : ns.Nodup) :
    Scanned s ns (ns.foldl visitNeighbor s) := by
  induction ns using List.reverseRecOn with
  | nil => exact ⟨rfl, by simp, fun _ _ h => h, by simp, fun _ _ h => Or.inl h, by simp⟩
  | append_singleton ns nx ih =>
      rw [List.nodup_append'] at hnd
      have hnx : nx ∉ ns := fun h => hnd.2.2 h (by simp)
      have h := ih hnd.1
      rw [List.foldl_append]
      set s₁ := ns.foldl visitNeighbor s
      change Scanned s (ns ++ [nx]) (visitNeighbor s₁ nx)
      rw [visitNeighbor, h.rm]
      by_cases hrm : s.rm nx = true
      · rw [if_pos hrm]
        have hne : ∀ v, s.rm v = false → v ≠ nx := by
          rintro v hv rfl
          rw [hrm] at hv
          cases hv
        refine ⟨h.rm, fun v hv => ?_, h.labels, fun v hv hvrm => ?_, fun k v hv => ?_,
          h.maxLabel.1, fun v hv hvrm => ?_⟩
        · rw [h.label_eq v hv]
          simp [hne v hv]
        · exact h.mem_labels v (by simpa [hne v hvrm] using hv) hvrm
        · refine (h.new k v hv).imp_right fun hnew => ⟨?_, hnew.2⟩
          exact List.mem_append_left _ hnew.1
        · exact h.maxLabel.2 v (by simpa [hne v hvrm] using hv) hvrm
      · rw [if_neg hrm]
        rw [Bool.not_eq_true] at hrm
        have hlabel : s₁.label nx = s.label nx := by
          rw [h.label_eq nx hrm, if_neg hnx, Nat.add_zero]
        rw [hlabel]
        have hgrow : ∀ k, ∀ v ∈ s₁.labels k, v ∈ Function.update s₁.labels
            (s.label nx + 1) (nx :: s₁.labels (s.label nx + 1)) k := by
          intro k v hv
          by_cases hk : k = s.label nx + 1
          · subst hk
            simp [hv]
          · rwa [Function.update_of_ne hk]
        refine ⟨rfl, fun v hv => ?_, fun k v hv => hgrow k v (h.labels k v hv),
          fun v hv hvrm => ?_, fun k v hv => ?_, ?_, fun v hv hvrm => ?_⟩
        · dsimp only
          by_cases hvx : v = nx
          · subst hvx
            simp
          · rw [Function.update_of_ne hvx, h.label_eq v hv]
            simp [hvx]
        · dsimp only
          rcases List.mem_append.mp hv with hv | hv
          · exact hgrow _ _ (h.mem_labels v hv hvrm)
          · obtain rfl := List.mem_singleton.mp hv
            simp
        · dsimp only at hv
          by_cases hk : k = s.label nx + 1
          · subst hk
            rw [Function.update_self, List.mem_cons] at hv
            rcases hv with rfl | hv
            · exact Or.inr ⟨by simp, hrm, rfl⟩
            · refine (h.new _ v hv).imp_right fun hnew => ⟨?_, hnew.2⟩
              exact List.mem_append_left _ hnew.1
          · rw [Function.update_of_ne hk] at hv
            refine (h.new k v hv).imp_right fun hnew => ⟨?_, hnew.2⟩
            exact List.mem_append_left _ hnew.1
        · exact h.maxLabel.1.trans (le_max_left _ _)
        · rcases List.mem_append.mp hv with hv | hv
          · exact (h.maxLabel.2 v hv hvrm).trans (le_max_left _ _)
          · obtain rfl := List.mem_singleton.mp hv
            exact le_max_right _ _

/-- Choosing `x` adds one to the count of its neighbours. -/
theorem degreeIn_cons (hg : g.Valid) (hx : x ∉ order) (v : Fin n) :
    g.toSimple.degreeIn (x :: order) v = g.toSimple.degreeIn order v +
      if v ∈ g.adjList x then 1 else 0 := by
  by_cases hadj : g.toSimple.Adj v x
  · rw [degreeIn_cons_of_adj hx hadj, if_pos (hg.mem_adjList_iff.mpr hadj.symm)]
  · rw [degreeIn_cons_of_not_adj hadj, if_neg fun h => hadj (hg.mem_adjList_iff.mp h).symm,
      Nat.add_zero]

/-- One round: the chosen vertex has the largest label and the invariant is
kept. -/
theorem Inv.step (hg : g.Valid) (h : Inv g order s) (hy : y ∉ order) :
    ∃ p, popMax s.rm s.maxLabel s.labels = some p ∧ p.1 ∉ order ∧
      (∀ v, v ∉ order →
        g.toSimple.degreeIn order v ≤ g.toSimple.degreeIn order p.1) ∧
      Inv g (p.1 :: order)
        (visit g { s with maxLabel := p.2.1, labels := p.2.2 } p.1) := by
  have hfalse : ∀ v, s.rm v = false ↔ v ∉ order := fun v => by
    rw [← h.rm_iff, Bool.not_eq_true]
  obtain ⟨⟨x, k, labels⟩, hpop, hp⟩ := popMax_spec s.rm s.maxLabel s.labels
    ⟨_, h.label_le y hy, y, h.mem_labels y hy, (hfalse y).mpr hy⟩
  have hx : x ∉ order := (hfalse x).mp hp.fresh
  -- The stack of the chosen vertex is the one of its label.
  have hle : ∀ v, v ∉ order → s.label v ≤ k := fun v hv =>
    hp.highest _ (h.label_le v hv) v (h.mem_labels v hv) ((hfalse v).mpr hv)
  have hk : s.label x = k := (hle x hx).antisymm (h.le_label k x hp.mem hx)
  refine ⟨_, hpop, hx, fun v hv => ?_, ?_⟩
  · rw [← h.label_eq v hv, ← h.label_eq x hx, hk]
    exact hle v hv
  have hs := scanned_neighbors { s with maxLabel := k, labels := labels } (g.adjList x)
    (hg.nodup_adjList x)
  rw [visit]
  set s' := (g.adjList x).foldl visitNeighbor { s with maxLabel := k, labels := labels }
  have hlabel : ∀ v, v ∉ order →
      s'.label v = s.label v + if v ∈ g.adjList x then 1 else 0 := fun v hv =>
    hs.label_eq v ((hfalse v).mpr hv)
  have hout : ∀ v, v ∉ x :: order → v ∉ order ∧ v ≠ x := by
    intro v hv
    rw [List.mem_cons, not_or] at hv
    exact ⟨hv.2, hv.1⟩
  refine ⟨fun v => ?_, fun v hv => ?_, fun v hv => ?_, fun j v hv hvo => ?_,
    fun v hv => ?_⟩
  · dsimp only
    rw [hs.rm]
    by_cases hvx : v = x
    · subst hvx
      simp
    · rw [Function.update_of_ne hvx, h.rm_iff]
      simp [hvx]
  · dsimp only
    rw [hlabel v (hout v hv).1, h.label_eq v (hout v hv).1, degreeIn_cons hg hx]
  · dsimp only
    obtain ⟨hvo, hvx⟩ := hout v hv
    rw [hlabel v hvo]
    by_cases hadj : v ∈ g.adjList x
    · rw [if_pos hadj]
      exact hs.mem_labels v hadj ((hfalse v).mpr hvo)
    · rw [if_neg hadj, Nat.add_zero]
      exact hs.labels _ v (hp.kept _ v (h.mem_labels v hvo) ((hfalse v).mpr hvo) hvx)
  · dsimp only at hv ⊢
    obtain ⟨hvo, -⟩ := hout v hvo
    rw [hlabel v hvo]
    rcases hs.new j v hv with hold | ⟨hadj, -, rfl⟩
    · exact (h.le_label j v (hp.subset j v hold) hvo).trans (Nat.le_add_right _ _)
    · rw [if_pos hadj]
  · dsimp only
    obtain ⟨hvo, -⟩ := hout v hv
    rw [hlabel v hvo]
    by_cases hadj : v ∈ g.adjList x
    · rw [if_pos hadj]
      exact hs.maxLabel.2 v hadj ((hfalse v).mpr hvo)
    · rw [if_neg hadj, Nat.add_zero]
      exact (hle v hvo).trans hs.maxLabel.1

/-- The chosen vertices had the largest number of neighbours chosen before. -/
def ChosenMaximal (g : Graph n) (order : List (Fin n)) : Prop :=
  ∀ pre x post, order = pre ++ x :: post → ∀ y, y ∉ post →
    g.toSimple.degreeIn post y ≤ g.toSimple.degreeIn post x

theorem ChosenMaximal.cons (h : ChosenMaximal g order)
    (hx : ∀ y, y ∉ order →
      g.toSimple.degreeIn order y ≤ g.toSimple.degreeIn order x) :
    ChosenMaximal g (x :: order) := by
  intro pre z post heq
  cases pre with
  | nil =>
      obtain ⟨rfl, rfl⟩ := List.cons.inj heq
      exact hx
  | cons a pre => exact h pre z post (List.cons.inj heq).2

/-- Some vertex is missing from a list that is shorter than the vertex set. -/
theorem exists_notMem_of_length_lt {l : List (Fin n)} (hlt : l.length < n) : ∃ y, y ∉ l := by
  by_contra hall
  push Not at hall
  have hle := (List.nodup_finRange n).length_le_of_subset fun v _ => hall v
  rw [List.length_finRange] at hle
  exact absurd hlt (Nat.not_lt.mpr hle)

theorem loop_spec (hg : g.Valid) (it : ℕ) (s : State n) (order : List (Fin n))
    (h : Inv g order s) (hnd : order.Nodup) (hmax : ChosenMaximal g order)
    (hlen : it + order.length = n) :
    ∃ order', loop g it s order = some order' ∧ order'.Nodup ∧
      order'.length = n ∧ ChosenMaximal g order' := by
  induction it generalizing s order with
  | zero => exact ⟨order, rfl, hnd, by omega, hmax⟩
  | succ it ih =>
      obtain ⟨y, hy⟩ := exists_notMem_of_length_lt (l := order) (by omega)
      obtain ⟨p, hpop, hp, hpmax, hinv⟩ := h.step hg hy
      obtain ⟨order', hloop, h'⟩ := ih _ (p.1 :: order) hinv
        (List.nodup_cons.mpr ⟨hp, hnd⟩) (hmax.cons hpmax)
        (by rw [List.length_cons]; omega)
      refine ⟨order', ?_, h'⟩
      rw [loop, hpop, Option.bind_eq_bind, Option.bind_some]
      exact hloop

/-- A list of distinct vertices as long as the vertex set contains all of
them. -/
theorem mem_of_length_eq {l : List (Fin n)} (hnd : l.Nodup) (hlen : l.length = n)
    (v : Fin n) : v ∈ l := by
  have hcard : l.toFinset.card = Fintype.card (Fin n) := by
    rw [List.toFinset_card_of_nodup hnd, hlen, Fintype.card_fin]
  have huniv := Finset.eq_univ_of_card _ hcard
  have hv : v ∈ l.toFinset := huniv ▸ Finset.mem_univ v
  exact List.mem_toFinset.mp hv

/-- `Mcs` returns a maximum cardinality order of the graph. -/
theorem mcs_spec (hg : g.Valid) :
    ∃ order, mcs g = some order ∧ g.toSimple.IsMcsOrder order := by
  obtain ⟨order, hloop, hnd, hlen, hmax⟩ := loop_spec hg n (State.init n) []
    (inv_init g) List.nodup_nil (by simp [ChosenMaximal]) (by simp)
  refine ⟨order, hloop, hnd, mem_of_length_eq hnd hlen, fun pre x post heq y hy => ?_⟩
  refine hmax pre x post heq y fun hpost => ?_
  rw [heq, List.nodup_append'] at hnd
  exact hnd.2.2 hy (List.mem_cons_of_mem x hpost)

end Mcs

end Triangulator
