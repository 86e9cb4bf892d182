import Triangulator.Model.Statics
import Triangulator.Verification.GraphUpdate
import Triangulator.Verification.McsOrder

/-!
# The bucket loop of maximum cardinality search

An iteration of the main loop of `Mcs` lowers `max_label`, pops a removed vertex or
chooses a vertex.  The first two leave the outcome of the search unchanged, and all three
lower a measure of the work that is left.
-/

namespace Triangulator

open SimpleGraph

variable {n : ℕ} {g : Graph n}

namespace Buffered

/-! ## Prepared vectors -/

theorem initZero_eq {α : Type} (zero : α) (vec : List α) :
    initZero zero vec n = Buffer.of (fun _ : Fin n => zero) [] := by
  rw [initZero, Buffer.of, List.append_nil, List.map_const', Buffer.length_resize,
    List.ofFn_const]

/-- The stacks of the graph are empty, and those of larger graphs are left as they are. -/
theorem clearStacks_eq (vec : List (List ℕ)) :
    clearStacks n vec = .ok (Buffer.of (fun _ : Fin n => []) (vec.drop n)) := by
  rw [clearStacks]
  by_cases hlen : vec.length < n
  · rw [if_pos hlen]
    obtain ⟨f, hf⟩ := Buffer.exists_eq_of
      (Buffer.length_resize ([] : List ℕ) n vec).ge
    have hdrop : (Buffer.resize [] n vec).drop n = vec.drop n := by
      rw [List.drop_eq_nil_of_le (Buffer.length_resize _ _ _).le,
        List.drop_eq_nil_of_le hlen.le]
    rw [hf, Buffer.setEach_finRange, hdrop]
  · rw [if_neg hlen]
    obtain ⟨f, hf⟩ := Buffer.exists_eq_of (not_lt.mp hlen)
    conv_lhs => rw [hf]
    exact Buffer.setEach_finRange f _ []

theorem vertex_eq (x : Fin n) : vertex n x = .ok x :=
  dif_pos x.isLt

/-- A stack with its top last, as the vectors hold it. -/
def stack (l : List (Fin n)) : List ℕ :=
  (l.map Fin.val).reverse

theorem stack_cons (x : Fin n) (l : List (Fin n)) : stack (x :: l) = stack l ++ [(x : ℕ)] := by
  rw [stack, List.map_cons, List.reverse_cons]
  exact rfl

theorem getLast?_stack (l : List (Fin n)) : (stack l).getLast? = l.head?.map Fin.val := by
  rw [stack, List.getLast?_reverse, List.head?_map]

theorem dropLast_stack_cons (x : Fin n) (l : List (Fin n)) :
    (stack (x :: l)).dropLast = stack l := by
  rw [stack_cons, List.dropLast_concat]

/-! ## The vectors of a state of the search -/

/-- The vectors hold a state of the search; `tail` holds the stacks of larger graphs. -/
structure Encodes (tail : List (List ℕ)) (a : Mcs.State n) (s : McsVars n) : Prop where
  label : s.label = Buffer.of a.label []
  rm : s.rm = Buffer.of a.rm []
  labels : s.labels = Buffer.of (fun k : Fin n => stack (a.labels k)) tail
  maxLabel : s.maxLabel = a.maxLabel

variable {tail : List (List ℕ)} {a : Mcs.State n} {s : McsVars n} {k : ℕ}

/-- Writing one stack. -/
theorem update_stack (labels : ℕ → List (Fin n)) (k : Fin n) (l : List (Fin n)) :
    Function.update (fun i : Fin n => stack (labels i)) k (stack l) =
      fun i : Fin n => stack (Function.update labels k l i) := by
  ext1 i
  by_cases hik : i = k
  · subst hik
    rw [Function.update_self, Function.update_self]
  · rw [Function.update_of_ne hik, Function.update_of_ne fun h => hik (Fin.ext h)]

theorem pushBack_stack (labels : ℕ → List (Fin n)) (tail : List (List ℕ)) (k x : Fin n) :
    Buffer.pushBack (Buffer.of (fun i : Fin n => stack (labels i)) tail) k (x : ℕ) =
      .ok (Buffer.of
        (fun i : Fin n => stack (Function.update labels k (x :: labels k) i)) tail) := by
  rw [Buffer.pushBack_of, ← stack_cons, update_stack]

/-- The stacks while the vertices are pushed onto the lowest one. -/
def lowest (l : List (Fin n)) : ℕ → List (Fin n) :=
  fun k => if k = 0 then l else []

theorem lowest_nil : lowest ([] : List (Fin n)) = fun _ => [] := by
  ext1 k
  exact ite_self _

theorem update_lowest (l : List (Fin n)) (x : Fin n) :
    Function.update (lowest l) 0 (x :: lowest l 0) = lowest (x :: l) := by
  ext1 k
  by_cases hk : k = 0
  · subst hk
    exact Function.update_self _ _ _
  · rw [Function.update_of_ne hk, lowest, lowest, if_neg hk, if_neg hk]

theorem pushLowest (tail : List (List ℕ)) (l pushed : List (Fin n)) :
    l.foldlM (fun labels (i : Fin n) => Buffer.pushBack labels 0 (i : ℕ))
        (Buffer.of (fun k : Fin n => stack (lowest pushed k)) tail) =
      .ok (Buffer.of (fun k : Fin n => stack (lowest (l.reverse ++ pushed) k)) tail) := by
  induction l generalizing pushed with
  | nil => rfl
  | cons x l ih =>
      have hpush := pushBack_stack (lowest pushed) tail ⟨0, x.pos⟩ x
      rw [update_lowest] at hpush
      rw [List.foldlM_cons, hpush, List.reverse_cons, List.append_assoc]
      exact ih (x :: pushed)

theorem mcsInit_yields (b : McsStatics) :
    (mcsInit n b).Yields fun s => Encodes (b.labels.drop n) (Mcs.State.init n) s ∧
      s.it = n ∧ s.order = [] := by
  have hpush := pushLowest (b.labels.drop n) (List.finRange n) []
  rw [lowest_nil, List.append_nil] at hpush
  rw [mcsInit, clearStacks_eq]
  apply Except.Yields.bind (P := fun labels => labels = Buffer.of
    (fun k : Fin n => stack (lowest (List.finRange n).reverse k)) (b.labels.drop n))
    ⟨_, hpush, rfl⟩
  intro labels hlabels
  apply Except.Yields.pure
  refine ⟨⟨initZero_eq 0 _, initZero_eq false _, ?_, rfl⟩, rfl, rfl⟩
  rw [hlabels]
  exact rfl

/-! ## The neighbours of a chosen vertex -/

theorem Encodes.visit (h : Encodes tail a s) {nx : Fin n}
    (hlt : a.rm nx = false → a.label nx + 1 < n) :
    (mcsVisit s nx).Yields fun s' => Encodes tail (Mcs.visitNeighbor a nx) s' ∧
      s'.it = s.it ∧ s'.order = s.order := by
  rw [mcsVisit, h.rm, Buffer.get_of, Mcs.visitNeighbor]
  cases hrm : a.rm nx with
  | true => exact Except.Yields.pure ⟨h, rfl, rfl⟩
  | false =>
      have hpush := pushBack_stack a.labels tail ⟨a.label nx + 1, hlt hrm⟩ nx
      have hset := Buffer.set_of a.label [] nx (a.label nx + 1)
      refine ⟨{ s with
        label := Buffer.of (Function.update a.label nx (a.label nx + 1)) []
        labels := Buffer.of (fun i : Fin n => stack (Function.update a.labels
          (a.label nx + 1) (nx :: a.labels (a.label nx + 1)) i)) tail
        maxLabel := max s.maxLabel ((a.label nx : ℤ) + 1) }, ?_, ⟨rfl, h.rm, rfl, ?_⟩, rfl, rfl⟩
      · rw [h.label, Buffer.get_of, h.labels]
        change (Buffer.set (Buffer.of a.label []) nx (a.label nx + 1) >>= fun label =>
          Buffer.pushBack _ (a.label nx + 1) (nx : ℕ) >>= fun labels => _) = _
        rw [hset]
        change (Buffer.pushBack _ (a.label nx + 1) (nx : ℕ) >>= fun labels => _) = _
        rw [hpush]
        exact congrArg Except.ok (by rw [h.rm])
      · change max s.maxLabel ((a.label nx : ℤ) + 1) = ((max a.maxLabel (a.label nx + 1) : ℕ) : ℤ)
        rw [h.maxLabel, Nat.cast_max, Nat.cast_add, Nat.cast_one]

/-- The labels of the vertices that are not visited yet are those before the loop. -/
theorem Encodes.visitAll {ns : List (Fin n)} (hnd : ns.Nodup) (h : Encodes tail a s)
    (hlt : ∀ v ∈ ns, a.rm v = false → a.label v + 1 < n) :
    (ns.foldlM mcsVisit s).Yields fun s' => Encodes tail (ns.foldl Mcs.visitNeighbor a) s' ∧
      s'.it = s.it ∧ s'.order = s.order := by
  induction ns generalizing a s with
  | nil => exact Except.Yields.pure ⟨h, rfl, rfl⟩
  | cons nx ns ih =>
      obtain ⟨hnx, hnd⟩ := List.nodup_cons.mp hnd
      rw [List.foldlM_cons, List.foldl_cons]
      apply (h.visit (hlt nx List.mem_cons_self)).bind
      intro s' hs'
      have hlt' : ∀ v ∈ ns, (Mcs.visitNeighbor a nx).rm v = false →
          (Mcs.visitNeighbor a nx).label v + 1 < n := by
        intro v hv
        have hne : v ≠ nx := fun heq => hnx (heq ▸ hv)
        rw [Mcs.visitNeighbor]
        by_cases hrm : a.rm nx = true
        · rw [if_pos hrm]
          exact hlt v (List.mem_cons_of_mem nx hv)
        · rw [if_neg hrm]
          dsimp only
          rw [Function.update_of_ne hne]
          exact hlt v (List.mem_cons_of_mem nx hv)
      apply (ih hnd hs'.1 hlt').mono
      intro s'' hs''
      exact ⟨hs''.1, hs''.2.1.trans hs'.2.1, hs''.2.2.trans hs'.2.2⟩

/-! ## The work that is left -/

/-- The number of entries of the stacks. -/
def entries (n : ℕ) (labels : ℕ → List (Fin n)) : ℕ :=
  ∑ k ∈ Finset.range n, (labels k).length

theorem entries_update (labels : ℕ → List (Fin n)) (hk : k < n) (l : List (Fin n)) :
    entries n (Function.update labels k l) + (labels k).length =
      entries n labels + l.length := by
  have hmem := Finset.mem_range.mpr hk
  have hrest : ∑ i ∈ (Finset.range n).erase k, (Function.update labels k l i).length =
      ∑ i ∈ (Finset.range n).erase k, (labels i).length := by
    apply Finset.sum_congr rfl
    intro i hi
    rw [Function.update_of_ne (Finset.ne_of_mem_erase hi)]
  have hnew := Finset.add_sum_erase _ (fun i => (Function.update labels k l i).length) hmem
  have hold := Finset.add_sum_erase _ (fun i => (labels i).length) hmem
  rw [Function.update_self, hrest] at hnew
  rw [entries, entries]
  omega

/-- A bound on the iterations that are left: each choice of a vertex adds at most `2 * n`
entries and steps of `max_label`. -/
def weight (a : Mcs.State n) (it : ℕ) : ℕ :=
  it * (2 * n + 2) + entries n a.labels + a.maxLabel

theorem weight_init : weight (Mcs.State.init n) n = n * (2 * n + 3) := by
  have hentries : entries n (Mcs.State.init n).labels = n := by
    cases n with
    | zero => rfl
    | succ n =>
        have hsum := Finset.sum_eq_single_of_mem (f := fun k =>
          ((Mcs.State.init (n + 1)).labels k).length) 0
          (Finset.mem_range.mpr n.succ_pos) fun k _ hk => by simp [Mcs.State.init, hk]
        rw [entries, hsum]
        simp [Mcs.State.init]
  rw [weight, hentries]
  exact (by ring : n * (2 * n + 2) + n + 0 = n * (2 * n + 3))

/-- What the loop over the neighbours adds. -/
theorem visitNeighbor_bounds {ns : List (Fin n)} (hnd : ns.Nodup) {bound : ℕ}
    (hlabel : ∀ v ∈ ns, a.rm v = false → a.label v + 1 ≤ bound ∧ bound < n)
    (hmax : a.maxLabel ≤ bound) :
    (ns.foldl Mcs.visitNeighbor a).maxLabel ≤ bound ∧
      entries n (ns.foldl Mcs.visitNeighbor a).labels ≤ entries n a.labels + ns.length := by
  induction ns generalizing a with
  | nil => exact ⟨hmax, le_rfl⟩
  | cons nx ns ih =>
      obtain ⟨hnx, hnd⟩ := List.nodup_cons.mp hnd
      rw [List.foldl_cons, List.length_cons]
      by_cases hrm : a.rm nx = true
      · have hstay : Mcs.visitNeighbor a nx = a := by
          rw [Mcs.visitNeighbor, if_pos hrm]
        rw [hstay]
        obtain ⟨hm, he⟩ := ih hnd (fun v hv => hlabel v (List.mem_cons_of_mem nx hv)) hmax
        exact ⟨hm, by omega⟩
      · obtain ⟨hle, hbound⟩ := hlabel nx List.mem_cons_self (Bool.not_eq_true _ ▸ hrm)
        have hentries := entries_update a.labels (hle.trans_lt hbound)
          (nx :: a.labels (a.label nx + 1))
        rw [List.length_cons] at hentries
        rw [Mcs.visitNeighbor, if_neg hrm]
        obtain ⟨hm, he⟩ := ih (a := { a with
            label := Function.update a.label nx (a.label nx + 1)
            labels := Function.update a.labels (a.label nx + 1)
              (nx :: a.labels (a.label nx + 1))
            maxLabel := max a.maxLabel (a.label nx + 1) }) hnd
          (fun v hv hv' => by
            have hne : v ≠ nx := fun heq => hnx (heq ▸ hv)
            dsimp only at hv' ⊢
            rw [Function.update_of_ne hne]
            exact hlabel v (List.mem_cons_of_mem nx hv) hv')
          (max_le hmax hle)
        dsimp only at hm he ⊢
        exact ⟨hm, by omega⟩

/-! ## One iteration -/

/-- What holds before every iteration of the main loop, with the state of the search that
the vectors hold. -/
structure LoopInv (g : Graph n) (tail : List (List ℕ)) (a : Mcs.State n) (s : McsVars n) :
    Prop extends Encodes tail a s where
  inv : Mcs.Inv g s.order a
  nodup : s.order.Nodup
  it_add : s.it + s.order.length = n
  chosen : Mcs.ChosenMaximal g s.order
  maxLabel_le : a.maxLabel ≤ s.order.length
  outcome : Mcs.loop g s.it a s.order = Mcs.mcs g

variable (hg : g.Valid)

/-- Two states with the same next vertex and stacks have the same outcome. -/
theorem loop_eq_of_popMax {a c : Mcs.State n} (hrm : c.rm = a.rm) (hlabel : c.label = a.label)
    (hpop : Mcs.popMax c.rm c.maxLabel c.labels = Mcs.popMax a.rm a.maxLabel a.labels)
    (it : ℕ) (order : List (Fin n)) :
    Mcs.loop g (it + 1) c order = Mcs.loop g (it + 1) a order := by
  obtain ⟨label, rm, labels, maxLabel⟩ := a
  obtain ⟨label', rm', labels', maxLabel'⟩ := c
  obtain rfl : rm' = rm := hrm
  obtain rfl : label' = label := hlabel
  rw [Mcs.loop, Mcs.loop, hpop]

/-- The lowest stack is not empty while a vertex is left. -/
theorem LoopInv.pos_of_empty (h : LoopInv g tail a s) (hit : s.it ≠ 0)
    (hempty : a.labels a.maxLabel = []) : 0 < a.maxLabel := by
  have hadd := h.it_add
  obtain ⟨y, hy⟩ := Mcs.exists_notMem_of_length_lt (l := s.order) (by omega)
  have hle := h.inv.label_le y hy
  have hmem := h.inv.mem_labels y hy
  by_contra hzero
  have hlabel : a.label y = a.maxLabel := by omega
  rw [hlabel, hempty] at hmem
  cases hmem

/-- An empty stack. -/
theorem LoopInv.lower (h : LoopInv g tail a s) (hit : s.it ≠ 0)
    (hempty : a.labels a.maxLabel = []) :
    LoopInv g tail { a with maxLabel := a.maxLabel - 1 }
      { s with maxLabel := s.maxLabel - 1 } where
  label := h.label
  rm := h.rm
  labels := h.labels
  maxLabel := by
    have hpos := h.pos_of_empty hit hempty
    change s.maxLabel - 1 = ((a.maxLabel - 1 : ℕ) : ℤ)
    rw [h.maxLabel, Nat.cast_sub hpos, Nat.cast_one]
  inv :=
    { rm_iff := h.inv.rm_iff
      label_eq := h.inv.label_eq
      mem_labels := h.inv.mem_labels
      le_label := h.inv.le_label
      label_le := by
        intro v hv
        have hle := h.inv.label_le v hv
        have hne : a.label v ≠ a.maxLabel := by
          intro heq
          have hmem := h.inv.mem_labels v hv
          rw [heq, hempty] at hmem
          cases hmem
        change a.label v ≤ a.maxLabel - 1
        omega }
  nodup := h.nodup
  it_add := h.it_add
  chosen := h.chosen
  maxLabel_le := (Nat.sub_le _ _).trans h.maxLabel_le
  outcome := by
    obtain ⟨k, hk⟩ := Nat.exists_eq_add_of_lt (h.pos_of_empty hit hempty)
    obtain ⟨it, hit⟩ := Nat.exists_eq_succ_of_ne_zero hit
    rw [← h.outcome]
    dsimp only
    rw [hit]
    apply loop_eq_of_popMax (a := a) (c := { a with maxLabel := a.maxLabel - 1 }) rfl rfl
    rw [Nat.zero_add] at hk
    dsimp only
    rw [hk] at hempty ⊢
    have hsame : Function.update a.labels (k + 1) [] = a.labels := by
      rw [← hempty, Function.update_eq_self]
    rw [Nat.add_sub_cancel, Mcs.popMax, hempty, hsame]
    exact rfl

/-- An outdated entry on top of the highest stack does not change what is popped. -/
theorem popMax_stale {rm : Fin n → Bool} {labels : ℕ → List (Fin n)} {x : Fin n}
    {rest : List (Fin n)} (hstack : labels k = x :: rest) (hx : rm x = true) :
    Mcs.popMax rm k (Function.update labels k rest) = Mcs.popMax rm k labels := by
  cases k with
  | zero =>
      rw [Mcs.popMax, Mcs.popMax, Function.update_self, hstack, List.dropWhile_cons_of_pos hx]
      cases rest.dropWhile rm with
      | nil => rfl
      | cons y l =>
          dsimp only
          rw [Function.update_idem]
  | succ k =>
      rw [Mcs.popMax, Mcs.popMax, Function.update_self, hstack, List.dropWhile_cons_of_pos hx]
      cases rest.dropWhile rm with
      | nil =>
          dsimp only
          rw [Function.update_idem]
      | cons y l =>
          dsimp only
          rw [Function.update_idem]

theorem popMax_fresh {rm : Fin n → Bool} {labels : ℕ → List (Fin n)} {x : Fin n}
    {rest : List (Fin n)} (hstack : labels k = x :: rest) (hx : rm x = false) :
    Mcs.popMax rm k labels = some (x, k, Function.update labels k rest) := by
  have hdrop : (x :: rest).dropWhile rm = x :: rest :=
    List.dropWhile_cons_of_neg (by rw [hx]; exact Bool.false_ne_true)
  cases k with
  | zero => rw [Mcs.popMax, hstack, hdrop]
  | succ k => rw [Mcs.popMax, hstack, hdrop]

/-- A removed vertex on top of the stack. -/
theorem LoopInv.pop (h : LoopInv g tail a s) (hit : s.it ≠ 0) {x : Fin n}
    {rest : List (Fin n)} (hstack : a.labels a.maxLabel = x :: rest) (hx : a.rm x = true)
    {labels : List (List ℕ)} (hlabels : labels = Buffer.of
      (fun k : Fin n => stack (Function.update a.labels a.maxLabel rest k)) tail) :
    LoopInv g tail { a with labels := Function.update a.labels a.maxLabel rest }
      { s with labels := labels } where
  label := h.label
  rm := h.rm
  labels := hlabels
  maxLabel := h.maxLabel
  inv :=
    { rm_iff := h.inv.rm_iff
      label_eq := h.inv.label_eq
      mem_labels := by
        intro v hv
        have hmem := h.inv.mem_labels v hv
        dsimp only
        by_cases hk : a.label v = a.maxLabel
        · rw [hk, hstack, List.mem_cons] at hmem
          rw [hk, Function.update_self]
          apply hmem.resolve_left
          intro heq
          rw [← heq, h.inv.rm_iff] at hx
          exact hv hx
        · rw [Function.update_of_ne hk]
          exact hmem
      le_label := by
        intro k v hv hvo
        dsimp only at hv
        by_cases hk : k = a.maxLabel
        · subst hk
          rw [Function.update_self] at hv
          exact h.inv.le_label _ v (hstack ▸ List.mem_cons_of_mem x hv) hvo
        · rw [Function.update_of_ne hk] at hv
          exact h.inv.le_label k v hv hvo
      label_le := h.inv.label_le }
  nodup := h.nodup
  it_add := h.it_add
  chosen := h.chosen
  maxLabel_le := h.maxLabel_le
  outcome := by
    obtain ⟨it, hit⟩ := Nat.exists_eq_succ_of_ne_zero hit
    rw [← h.outcome]
    dsimp only
    rw [hit]
    exact loop_eq_of_popMax (a := a)
      (c := { a with labels := Function.update a.labels a.maxLabel rest }) rfl rfl
      (popMax_stale hstack hx) it s.order

/-- The state after a vertex has been chosen. -/
theorem LoopInv.choose (hg : g.Valid) (h : LoopInv g tail a s) (hit : s.it ≠ 0) {x : Fin n}
    {rest : List (Fin n)} (hstack : a.labels a.maxLabel = x :: rest) (hx : a.rm x = false)
    {labels : List (List ℕ)} (hlabels : labels = Buffer.of
      (fun k : Fin n => stack (Function.update a.labels a.maxLabel rest k)) tail) :
    ((g.adjList x).foldlM mcsVisit { s with labels := labels }).Yields fun s' =>
      s'.rm = Buffer.of a.rm [] ∧ s'.it = s.it ∧ s'.order = s.order ∧
      ∃ a', LoopInv g tail a'
          { s' with
            rm := Buffer.of (Function.update a.rm x true) []
            it := s.it - 1
            order := x :: s.order } ∧
        weight a' (s.it - 1) < weight a s.it := by
  obtain ⟨it, hsucc⟩ := Nat.exists_eq_succ_of_ne_zero hit
  have hadd := h.it_add
  have hxo : x ∉ s.order := by
    rw [← h.inv.rm_iff, hx]
    exact Bool.false_ne_true
  -- The step of the search that the iteration makes.
  obtain ⟨p, hpop, -, hmax, hinv⟩ := h.inv.step hg hxo
  obtain rfl := Option.some.inj ((popMax_fresh hstack hx).symm.trans hpop)
  dsimp only at hmax hinv
  set a₀ : Mcs.State n := { a with labels := Function.update a.labels a.maxLabel rest }
  have hlabel : ∀ v ∈ g.adjList x, a₀.rm v = false →
      a₀.label v + 1 ≤ s.order.length + 1 ∧ s.order.length + 1 < n := by
    intro v hv hrm
    have hvo : v ∉ s.order := by
      rw [← h.inv.rm_iff]
      exact (Bool.not_eq_true _).mpr hrm
    have hvx : v ≠ x := by
      intro heq
      rw [heq] at hv
      exact g.toSimple.loopless.irrefl x (hg.mem_adjList_iff.mp hv)
    have hnd : (v :: x :: s.order).Nodup := by
      rw [List.nodup_cons, List.mem_cons, not_or]
      exact ⟨⟨hvx, hvo⟩, List.nodup_cons.mpr ⟨hxo, h.nodup⟩⟩
    have hlen := hnd.length_le_card
    rw [Fintype.card_fin, List.length_cons, List.length_cons] at hlen
    have hle : a.label v ≤ s.order.length := by
      rw [h.inv.label_eq v hvo]
      exact degreeIn_le_length
    exact ⟨Nat.succ_le_succ hle, hlen⟩
  have hnd := hg.nodup_adjList x
  obtain ⟨hm, he⟩ := visitNeighbor_bounds hnd hlabel (h.maxLabel_le.trans (Nat.le_succ _))
  have hencodes : Encodes tail a₀ { s with labels := labels } :=
    ⟨h.label, h.rm, hlabels, h.maxLabel⟩
  apply (hencodes.visitAll hnd fun v hv hrm =>
    (hlabel v hv hrm).1.trans_lt (hlabel v hv hrm).2).mono
  intro s' hs'
  obtain ⟨hs', hit', horder'⟩ := hs'
  have hrm := (Mcs.scanned_neighbors a₀ (g.adjList x) hnd).rm
  refine ⟨?_, hit', horder', Mcs.visit g a₀ x, ⟨⟨hs'.label, ?_, hs'.labels, hs'.maxLabel⟩,
    hinv, ?_, ?_, h.chosen.cons hmax, hm, ?_⟩, ?_⟩
  · rw [hs'.rm, hrm]
  · rw [Mcs.visit]
    dsimp only
    rw [hrm]
  · exact List.nodup_cons.mpr ⟨hxo, h.nodup⟩
  · change s.it - 1 + (s.order.length + 1) = n
    omega
  · rw [← h.outcome, hsucc]
    change Mcs.loop g it _ (x :: s.order) = Mcs.loop g (it + 1) a s.order
    rw [Mcs.loop, popMax_fresh hstack hx]
    exact rfl
  · have hk : a.maxLabel < n := h.maxLabel_le.trans_lt (by omega)
    have hpopped := entries_update a.labels hk rest
    rw [hstack, List.length_cons] at hpopped
    have hdeg := hnd.length_le_card
    rw [Fintype.card_fin] at hdeg
    have hvisit : weight (Mcs.visit g a₀ x) it ≤
        it * (2 * n + 2) + (entries n a₀.labels + n) + (s.order.length + 1) :=
      add_le_add (add_le_add le_rfl (he.trans (Nat.add_le_add_left hdeg _))) hm
    have hsplit : (it + 1) * (2 * n + 2) = it * (2 * n + 2) + (2 * n + 2) := by ring
    change entries n a₀.labels + (rest.length + 1) = _ at hpopped
    rw [hsucc, Nat.succ_eq_add_one, Nat.add_sub_cancel, weight, weight, hsplit]
    rw [weight] at hvisit
    omega

/-- An iteration keeps the invariant and lowers the weight. -/
theorem LoopInv.step (hg : g.Valid) (h : LoopInv g tail a s) (hit : s.it ≠ 0) :
    (mcsRound g s).Yields fun s' =>
      ∃ a', LoopInv g tail a' s' ∧ weight a' s'.it < weight a s.it := by
  have hadd := h.it_add
  have hk : a.maxLabel < n := h.maxLabel_le.trans_lt (by omega)
  have hget : Buffer.get s.labels a.maxLabel = .ok (stack (a.labels a.maxLabel)) := by
    rw [h.labels]
    exact Buffer.get_of _ tail ⟨a.maxLabel, hk⟩
  rw [mcsRound, h.maxLabel, Buffer.index_natCast]
  change (Buffer.get s.labels a.maxLabel >>= fun stack => _).Yields _
  rw [hget]
  apply Except.Yields.bind (P := fun l => l = stack (a.labels a.maxLabel)) ⟨_, rfl, rfl⟩
  rintro _ rfl
  rw [getLast?_stack]
  cases hstack : a.labels a.maxLabel with
  | nil =>
      have hpos := h.pos_of_empty hit hstack
      have hlower := h.lower hit hstack
      rw [h.maxLabel] at hlower
      apply Except.Yields.pure
      refine ⟨_, hlower, ?_⟩
      rw [weight, weight]
      dsimp only
      omega
  | cons x rest =>
      have hset := Buffer.set_of (fun k : Fin n => stack (a.labels k)) tail
        ⟨a.maxLabel, hk⟩ (stack rest)
      rw [update_stack, ← h.labels] at hset
      rw [dropLast_stack_cons]
      change (Buffer.set s.labels a.maxLabel (stack rest) >>= fun labels =>
        Buffer.get s.rm x >>= fun removed => _).Yields _
      rw [hset, h.rm]
      change (Buffer.get (Buffer.of a.rm []) x >>= fun removed => _).Yields _
      rw [Buffer.get_of]
      cases hx : a.rm x with
      | true =>
          have hpop := h.pop hit hstack hx rfl
          rw [h.maxLabel, h.rm] at hpop
          apply Except.Yields.pure
          refine ⟨_, hpop, ?_⟩
          have hentries := entries_update a.labels hk rest
          rw [hstack, List.length_cons] at hentries
          rw [weight, weight]
          dsimp only
          omega
      | false =>
          change (vertex n x >>= fun x => _).Yields _
          rw [vertex_eq]
          have hchoose := h.choose hg hit hstack hx rfl
          rw [h.maxLabel, h.rm] at hchoose
          apply hchoose.bind
          rintro s' ⟨hrm, hit', horder, a', hinv, hlt⟩
          rw [hrm, Buffer.set_of]
          apply Except.Yields.pure
          rw [hit', horder]
          exact ⟨a', hinv, hlt⟩

/-! ## Whole runs -/

/-- The states of the main loop, from `s₀` on. -/
inductive McsReaches (g : Graph n) (s₀ : McsVars n) : McsVars n → Prop
  | start : McsReaches g s₀ s₀
  | round {s s' : McsVars n} (h : McsReaches g s₀ s) (hit : s.it ≠ 0)
      (hround : mcsRound g s = .ok s') : McsReaches g s₀ s'

theorem loopInv_init (g : Graph n) (hs : Encodes tail (Mcs.State.init n) s) (hit : s.it = n)
    (horder : s.order = []) : LoopInv g tail (Mcs.State.init n) s where
  toEncodes := hs
  inv := by
    rw [horder]
    exact Mcs.inv_init g
  nodup := by
    rw [horder]
    exact List.nodup_nil
  it_add := by
    rw [horder]
    exact hit
  chosen := by
    rw [horder]
    intro pre x post heq
    exact absurd heq.symm (List.append_ne_nil_of_right_ne_nil pre (List.cons_ne_nil x post))
  maxLabel_le := Nat.zero_le _
  outcome := by
    rw [hit, horder]
    exact rfl

theorem LoopInv.of_reaches (hg : g.Valid) {s₀ : McsVars n} (h : LoopInv g tail a s₀)
    (hreach : McsReaches g s₀ s) : ∃ a', LoopInv g tail a' s := by
  induction hreach with
  | start => exact ⟨a, h⟩
  | round _ hit hround ih =>
      obtain ⟨a', ha'⟩ := ih
      obtain ⟨s', hs', a'', ha'', -⟩ := ha'.step hg hit
      obtain rfl := Except.ok.inj (hround.symm.trans hs')
      exact ⟨a'', ha''⟩

/-- The weight bounds the iterations. -/
theorem mcsLoop_yields (hg : g.Valid) {fuel : ℕ} (h : LoopInv g tail a s)
    (hfuel : weight a s.it ≤ fuel) :
    (mcsLoop g fuel s).Yields fun s' => s'.it = 0 ∧ ∃ a', LoopInv g tail a' s' := by
  induction fuel generalizing a s with
  | zero =>
      rw [weight] at hfuel
      have hit : s.it = 0 := by
        by_contra hne
        have hpos : 0 < s.it * (2 * n + 2) := Nat.mul_pos (Nat.pos_of_ne_zero hne) (by omega)
        omega
      rw [mcsLoop, if_pos hit]
      exact ⟨s, rfl, hit, a, h⟩
  | succ fuel ih =>
      rw [mcsLoop]
      by_cases hit : s.it = 0
      · rw [if_pos hit]
        exact ⟨s, rfl, hit, a, h⟩
      · rw [if_neg hit]
        apply (h.step hg hit).bind
        rintro s' ⟨a', ha', hlt⟩
        exact ih ha' (by omega)

/-- The search on its static vectors returns what it returns on any others. -/
theorem mcs_yields (hg : g.Valid) (b : McsStatics) :
    (mcs g b).Yields fun r => Mcs.mcs g = some r.1 ∧ r.1.Nodup ∧ r.1.length = n ∧
      Mcs.ChosenMaximal g r.1 := by
  apply (mcsInit_yields b).bind
  rintro s ⟨hs, hit, horder⟩
  have hinv := loopInv_init g hs hit horder
  apply (mcsLoop_yields hg hinv (by rw [hit, weight_init])).bind
  rintro s' ⟨hit', a, ha⟩
  apply Except.Yields.pure
  refine ⟨?_, ha.nodup, ?_, ha.chosen⟩
  · rw [← ha.outcome, hit']
    exact rfl
  · have hadd := ha.it_add
    rw [hit', Nat.zero_add] at hadd
    exact hadd

/-- Only the stacks of the graph are used. -/
theorem LoopInv.take (h : LoopInv g tail a s) :
    LoopInv g [] a { s with labels := s.labels.take n } where
  toEncodes :=
    { label := h.label
      rm := h.rm
      labels := by
        dsimp only
        rw [h.labels, Buffer.of, Buffer.of, List.append_nil]
        exact List.take_left' List.length_ofFn
      maxLabel := h.maxLabel }
  inv := h.inv
  nodup := h.nodup
  it_add := h.it_add
  chosen := h.chosen
  maxLabel_le := h.maxLabel_le
  outcome := h.outcome

/-- On any static vectors, every iteration of the main loop of `Mcs` finds `max_label`
between `0` and `n - 1` and completes even when `labels` ends after its first `n` stacks;
the loop ends with an order of all vertices, each of which had the largest number of
neighbours chosen before it among the vertices not chosen before it. -/
theorem mcs_buckets_safe (hg : g.Valid) (b : McsStatics) :
    (∃ s₀, mcsInit n b = .ok s₀ ∧ ∀ s, McsReaches g s₀ s → 0 ≤ s.maxLabel ∧
      (s.it ≠ 0 → s.maxLabel < n ∧ (∃ s', mcsRound g s = .ok s') ∧
        ∃ s', mcsRound g { s with labels := s.labels.take n } = .ok s')) ∧
    ∃ order b', mcs g b = .ok (order, b') ∧ order.Nodup ∧ (∀ v, v ∈ order) ∧
      ∀ pre x post, order = pre ++ x :: post → ∀ y, y ∉ post →
        g.toSimple.degreeIn post y ≤ g.toSimple.degreeIn post x := by
  constructor
  · obtain ⟨s₀, hinit, hs, hit, horder⟩ := mcsInit_yields (n := n) b
    refine ⟨s₀, hinit, ?_⟩
    intro s hreach
    obtain ⟨a, ha⟩ := (loopInv_init g hs hit horder).of_reaches hg hreach
    have hadd := ha.it_add
    have hle := ha.maxLabel_le
    have hmax := ha.maxLabel
    refine ⟨by omega, ?_⟩
    intro hne
    obtain ⟨s', hs', -⟩ := ha.step hg hne
    obtain ⟨s'', hs'', -⟩ := ha.take.step hg hne
    exact ⟨by omega, ⟨s', hs'⟩, s'', hs''⟩
  · obtain ⟨⟨order, b'⟩, hrun, -, hnd, hlen, hmax⟩ := mcs_yields hg b
    exact ⟨order, b', hrun, hnd, Mcs.mem_of_length_eq hnd hlen, hmax⟩

/-- A path on three vertices, after a search on a graph with five. -/
theorem mcs_buckets_safe_path :
    ∃ g, (Graph.empty 3).addEdges [(0, 1), (1, 2)] = some g ∧
      ∃ order b', mcs g ⟨[4, 0, 2, 1, 3], [true, true, true, true, true],
        [[], [4], [1, 2], [], [3, 0]]⟩ = .ok (order, b') ∧ order.Nodup ∧ ∀ v, v ∈ order := by
  obtain ⟨g, hadd, h⟩ := addEdges_spec (Graph.valid_empty 3) [(0, 1), (1, 2)] (by decide)
  obtain ⟨-, order, b', hrun, hnd, hall, -⟩ := mcs_buckets_safe h.valid
    ⟨[4, 0, 2, 1, 3], [true, true, true, true, true], [[], [4], [1, 2], [], [3, 0]]⟩
  exact ⟨g, hadd, order, b', hrun, hnd, hall⟩

end Buffered

end Triangulator
