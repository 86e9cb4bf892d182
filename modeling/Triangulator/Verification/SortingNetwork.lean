import Triangulator.Model.Cardinality
import Triangulator.Network.OddEvenMerge
import Triangulator.Verification.SatCalls

/-!
# The sorting network

The clauses of `HSort` define new variables from the inputs, so every model of the
other clauses extends to them, and in every model the outputs are the inputs in
sorted order.
-/

namespace Triangulator

open AbortM OddEven

namespace CardinalityNetworkBuilder

variable {base k : ℕ} {b : CardinalityNetworkBuilder} {t : Trace} {E : Trace → Prop}

/-- The builder has created `k` variables, those that are not in use yet are numbered from
`base` on, and they are the last ones of the solver. -/
structure Stored (base k : ℕ) (b : CardinalityNetworkBuilder) (t : Trace) : Prop where
  addVars_eq : b.addVars.length = k ∧
    ∀ i, b.freeVar ≤ i → i < k → b.addVars.getD i .undef = .var true (base + i)
  numVars_eq : t.numVars = base + k

/-- Every variable created is in use. -/
def Ready (base : ℕ) (b : CardinalityNetworkBuilder) (t : Trace) : Prop :=
  Stored base b.freeVar b t

theorem Stored.length_addVars (h : Stored base k b t) : b.addVars.length = k :=
  h.addVars_eq.1

/-- A builder between two calls: it has created the variables it uses. -/
structure Settled (b : CardinalityNetworkBuilder) (t : Trace) : Prop where
  length_eq : b.addVars.length = b.freeVar
  le : b.freeVar ≤ t.numVars

theorem settled_init (t : Trace) : Settled init t :=
  ⟨rfl, Nat.zero_le _⟩

theorem Settled.ready (h : Settled b t) : Ready (t.numVars - b.freeVar) b t :=
  ⟨⟨h.length_eq, fun _ hle hlt => absurd hle (Nat.not_le.mpr hlt)⟩,
    (Nat.sub_add_cancel h.le).symm⟩

theorem Ready.settled (h : Ready base b t) : Settled b t :=
  ⟨h.addVars_eq.1, h.numVars_eq ▸ Nat.le_add_left _ _⟩

theorem wp_var (h : Stored base k b t) {id : ℕ} (hid : b.freeVar ≤ id)
    {Q : Lit × CardinalityNetworkBuilder → Trace → Prop}
    (hQ : ∀ b', b'.freeVar = b.freeVar →
      Stored base (max k (id + 1)) b' (List.replicate (id + 1 - k) Event.newVar ++ t) →
      Q (.var true (base + id), b') (List.replicate (id + 1 - k) Event.newVar ++ t)) :
    wp (b.var id) Q E t := by
  rw [var, wp_bind, h.length_addVars]
  have hloop := wp_foldlM_range (E := E) (b := b.addVars) (s := t) (m := id + 1 - k)
    (f := fun vars _ => do
      let v ← newVar
      pure (vars ++ [v]))
    (fun j vars t' => (vars.length = k + j ∧
        ∀ i, b.freeVar ≤ i → i < k + j → vars.getD i .undef = .var true (base + i)) ∧
      t'.numVars = base + (k + j) ∧ t' = List.replicate j Event.newVar ++ t)
    ⟨h.addVars_eq, h.numVars_eq, rfl⟩
    (fun j _ vars t' hI => by
      obtain ⟨⟨hlen, hvars⟩, hnum, htrace⟩ := hI
      rw [wp_bind, wp_newVar, wp_pure]
      refine ⟨⟨?_, ?_⟩, ?_, ?_⟩
      · rw [List.length_append, hlen, List.length_singleton, Nat.add_assoc]
      · intro i hle hlt
        obtain hi | hi : i < k + j ∨ i = k + j := by omega
        · rw [List.getD_append _ _ _ _ (hlen ▸ hi)]
          exact hvars i hle hi
        · rw [hi, hnum, List.getD_append_right _ _ _ _ hlen.le, hlen, Nat.sub_self]
          exact rfl
      · rw [Trace.numVars_newVar, hnum]
        omega
      · rw [htrace]
        rfl)
  apply wp_imp hloop
  rintro vars t' ⟨⟨hlen, hvars⟩, hnum, rfl⟩
  have hmax : k + (id + 1 - k) = max k (id + 1) := by omega
  rw [wp_pure, hvars id hid (by omega)]
  rw [hmax] at hlen hvars hnum
  exact hQ _ rfl ⟨⟨hlen, hvars⟩, hnum⟩

/-- The next variable of a builder. -/
theorem wp_nextVar (h : Stored base k b t)
    {Q : Lit × CardinalityNetworkBuilder → Trace → Prop}
    (hQ : ∀ b', b'.freeVar = b.freeVar + 1 →
      Stored base (max k (b.freeVar + 1)) b'
        (List.replicate (b.freeVar + 1 - k) Event.newVar ++ t) →
      Q (.var true (base + b.freeVar), b')
        (List.replicate (b.freeVar + 1 - k) Event.newVar ++ t)) :
    wp b.nextVar Q E t := by
  rw [nextVar, wp_bind]
  apply wp_var h le_rfl
  intro b' hfree hs
  rw [wp_pure]
  apply hQ _ rfl
  refine ⟨⟨hs.addVars_eq.1, ?_⟩, hs.numVars_eq⟩
  intro i hle hlt
  exact hs.addVars_eq.2 i (hfree.le.trans ((Nat.le_succ _).trans hle)) hlt

/-- A variable that is created. -/
theorem wp_nextVar_ready (h : Ready base b t)
    {Q : Lit × CardinalityNetworkBuilder → Trace → Prop}
    (hQ : ∀ b', b'.freeVar = b.freeVar + 1 → Ready base b' (.newVar :: t) →
      Q (.var true t.numVars, b') (.newVar :: t)) :
    wp b.nextVar Q E t := by
  apply wp_nextVar h
  intro b' hfree hs
  rw [Nat.add_sub_cancel_left, max_eq_right (Nat.le_add_right _ 1), ← hfree] at hs
  rw [Nat.add_sub_cancel_left, ← h.numVars_eq]
  exact hQ b' hfree hs

/-! ## Comparators -/

/-- The clauses of a comparator. -/
theorem wp_addComparator {x y : Lit} {v : ℕ} (ht : t.Scoped) (hx : x.Valid v)
    (hy : y.Valid v) (hv : t.numVars = v + 2) {Q : Unit → Trace → Prop}
    (hQ : ∀ t', t'.numVars = t.numVars → t'.Scoped →
      (∀ σ, t'.Models σ ↔ (σ v = (x.eval σ || y.eval σ) ∧
        σ (v + 1) = (x.eval σ && y.eval σ)) ∧ t.Models σ) → Q () t') :
    wp (addComparator true true x y (.var true v) (some (.var true (v + 1)))) Q E t := by
  have hx' := hx.mono (Nat.le_add_right v 2)
  have hy' := hy.mono (Nat.le_add_right v 2)
  have hvalid : ∀ l ∈ [x, y, Lit.var true v, Lit.var true (v + 1)], l.Valid (v + 2) := by
    simp [hx', hy']
  simp only [addComparator, when, Option.elim_some, if_true, wp_bind]
  have hclause : ∀ clause : List Lit, (∀ l ∈ clause, l ∈ [x, y, Lit.var true v,
      Lit.var true (v + 1)] ∨ -l ∈ [x, y, Lit.var true v, Lit.var true (v + 1)]) →
      ∀ l ∈ clause, l.Valid (v + 2) := fun clause h l hl =>
    (h l hl).elim (hvalid l) fun h' => Lit.valid_neg.mp (hvalid _ h')
  have hneg : ∀ l : Lit, - -l = l := by
    intro l
    cases l with
    | undef => rfl
    | const b => exact congrArg Lit.const (Bool.not_not b)
    | var b v => exact congrArg (Lit.var · v) (Bool.not_not b)
  apply wp_addClause (by
    rw [hv]
    exact hclause _ (by simp [hneg]))
  apply wp_addClause (by
    rw [Trace.numVars_addClause, hv]
    exact hclause _ (by simp [hneg]))
  apply wp_addClause (by
    rw [Trace.numVars_addClause, Trace.numVars_addClause, hv]
    exact hclause _ (by simp [hneg]))
  apply wp_addClause (by
    simp only [Trace.numVars_addClause, hv]
    exact hclause _ (by simp [hneg]))
  apply wp_addClause (by
    simp only [Trace.numVars_addClause, hv]
    exact hclause _ (by simp [hneg]))
  apply wp_addClause (by
    simp only [Trace.numVars_addClause, hv]
    exact hclause _ (by simp [hneg]))
  apply hQ
  · rfl
  · simp only [Trace.Scoped, Trace.clauses_addClause, Trace.numVars_addClause,
      List.forall_mem_cons, hv]
    rw [Trace.Scoped, hv] at ht
    simp [hx', hy']
    exact ht
  · intro σ
    have hev : ∀ u < v + 2, (-(Lit.var true u)).eval σ = !σ u := fun u hu =>
      Lit.Valid.eval_neg (N := v + 2) hu
    simp only [Trace.models_addClause, holds_cons, not_holds_nil, or_false, hx.eval_neg,
      hy.eval_neg, Lit.eval_var_true, hev v (by omega), hev (v + 1) (by omega)]
    cases x.eval σ <;> cases y.eval σ <;> cases σ v <;> cases σ (v + 1) <;> simp

/-- A model extends to the outputs of a comparator. -/
theorem exists_comparator {x y : Lit} {t' : Trace} (ht : t.Scoped)
    (hx : x.Valid t.numVars) (hy : y.Valid t.numVars)
    (hmodels : ∀ σ, t'.Models σ ↔ (σ t.numVars = (x.eval σ || y.eval σ) ∧
      σ (t.numVars + 1) = (x.eval σ && y.eval σ)) ∧ t.Models σ) {σ : ℕ → Bool}
    (hσ : t.Models σ) : ∃ σ', AgreeBelow t.numVars σ σ' ∧ t'.Models σ' := by
  set σ₁ := Function.update (Function.update σ t.numVars (x.eval σ || y.eval σ))
    (t.numVars + 1) (x.eval σ && y.eval σ) with hσ₁
  have hagree : AgreeBelow t.numVars σ σ₁ := fun v hv => by
    rw [hσ₁, Function.update_of_ne (by omega), Function.update_of_ne (by omega)]
  refine ⟨σ₁, hagree, (hmodels σ₁).mpr ⟨⟨?_, ?_⟩, hσ.congr ht hagree⟩⟩
  · rw [hagree.eval hx, hagree.eval hy, hσ₁, Function.update_of_ne (by omega),
      Function.update_self]
  · rw [hagree.eval hx, hagree.eval hy, hσ₁, Function.update_self]

/-- Two new variables with the clauses of a comparator are determined by the other
variables and do not restrict them. -/
theorem defining_comparator {x y : Lit} {t' : Trace} (ht : t.Scoped)
    (hx : x.Valid t.numVars) (hy : y.Valid t.numVars) (ht' : t'.Scoped)
    (hnum : t'.numVars = t.numVars + 2)
    (hmodels : ∀ σ, t'.Models σ ↔ (σ t.numVars = (x.eval σ || y.eval σ) ∧
      σ (t.numVars + 1) = (x.eval σ && y.eval σ)) ∧ t.Models σ) :
    Trace.Defining t t' := by
  refine ⟨⟨⟨by omega, ht', fun σ hσ => ((hmodels σ).mp hσ).2⟩, fun σ hσ => ?_⟩, ?_⟩
  · exact exists_comparator ht hx hy hmodels hσ
  · intro σ σ' hσ hσ' hagree v hv
    obtain ⟨⟨hhi, hlo⟩, -⟩ := (hmodels σ).mp hσ
    obtain ⟨⟨hhi', hlo'⟩, -⟩ := (hmodels σ').mp hσ'
    rw [hagree.eval hx, hagree.eval hy] at hhi' hlo'
    by_cases hlt : v < t.numVars
    · exact hagree v hlt
    · by_cases heq : v = t.numVars
      · rw [heq, hhi, hhi']
      · have hlast : v = t.numVars + 1 := by omega
        rw [hlast, hlo, hlo']

/-! ## A merging round -/

/-- The entries of a block after a round: new variables between the first entry and
the last one. -/
def merged (base free le i : ℕ) (c : ℕ → Lit) : ℕ → Lit := fun x =>
  if i < x ∧ x < i + le - 1 then .var true (base + free + (x - (i + 1))) else c x

/-- `hMergeBlock` merges two blocks of length `L`. -/
theorem wp_hMergeBlock {L i : ℕ} {c : ℕ → Lit} (hL : 2 ≤ L) (ht : t.Scoped)
    (hb : Ready base b t) (hc : ∀ x < 2 * L, (c (i + x)).Known t.numVars)
    {Q : (ℕ → Lit) × CardinalityNetworkBuilder → Trace → Prop}
    (hQ : ∀ b' t', Trace.Defining t t' → Ready base b' t' →
      (∀ x, (c x).Known t.numVars → (merged base b.freeVar (2 * L) i c x).Known t'.numVars) →
      (∀ σ, t'.Models σ → MergeStep (fun x => (c x).eval σ)
        (fun x => (merged base b.freeVar (2 * L) i c x).eval σ) i L) →
      Q (merged base b.freeVar (2 * L) i c, b') t') :
    wp (hMergeBlock true true (2 * L) i (c, b)) Q E t := by
  have hbase : t.numVars = base + b.freeVar := hb.numVars_eq
  have hhalf : 2 * L / 2 = L := Nat.mul_div_cancel_left L Nat.two_pos
  rw [hMergeBlock, wp_bind, hhalf]
  -- The comparators: two variables for each.
  have hgates := wp_foldlM_range (E := E) (b := b) (s := t) (m := L - 1)
    (f := fun b' j => do
      let lo ← b'.var (b'.freeVar + 2 * j + 1)
      let hi ← lo.2.var (b'.freeVar + 2 * j)
      addComparator true true (c (i + j + 1)) (c (i + j + L)) hi.1 (some lo.1)
      pure hi.2)
    (fun j b' t' => b'.freeVar = b.freeVar ∧ Stored base (b.freeVar + 2 * j) b' t' ∧
      Trace.Defining t t' ∧ ∀ σ, t'.Models σ → ∀ j' < j,
        σ (base + b.freeVar + 2 * j') =
          ((c (i + j' + 1)).eval σ || (c (i + j' + L)).eval σ) ∧
        σ (base + b.freeVar + 2 * j' + 1) =
          ((c (i + j' + 1)).eval σ && (c (i + j' + L)).eval σ))
    ⟨rfl, hb, Trace.Defining.refl ht, fun _ _ _ hj => absurd hj (Nat.not_lt_zero _)⟩
    (fun j hj b₁ t₁ hI => by
      obtain ⟨hfree, hstored, hcons, hval⟩ := hI
      rw [wp_bind]
      apply wp_var hstored (by omega)
      intro b₂ hfree₂ hstored₂
      have htwo : b₁.freeVar + 2 * j + 1 + 1 - (b.freeVar + 2 * j) = 2 := by omega
      have hmax : max (b.freeVar + 2 * j) (b₁.freeVar + 2 * j + 1 + 1) =
          b.freeVar + 2 * (j + 1) := by omega
      rw [htwo, hmax] at hstored₂
      rw [htwo, wp_bind]
      apply wp_var hstored₂ (by omega)
      intro b₃ hfree₃ hstored₃
      have hnone : b₁.freeVar + 2 * j + 1 - (b.freeVar + 2 * (j + 1)) = 0 := by omega
      have hmax' : max (b.freeVar + 2 * (j + 1)) (b₁.freeVar + 2 * j + 1) =
          b.freeVar + 2 * (j + 1) := by omega
      rw [hnone, hmax'] at hstored₃
      rw [hnone, wp_bind]
      have hv : t₁.numVars = base + (b₁.freeVar + 2 * j) := by
        rw [hstored.numVars_eq, hfree]
      have hx : ∀ x < 2 * L, (c (i + x)).Valid t₁.numVars := fun x hx =>
        (hcons.toGrows.known (hc x hx)).valid
      have hx1 := hx (j + 1) (by omega)
      have hx2 := hx (j + L) (by omega)
      rw [← Nat.add_assoc] at hx1 hx2
      have hsc := hcons.wellScoped.newVar.newVar
      apply wp_addComparator hsc (hv ▸ hx1) (hv ▸ hx2) (by
        change t₁.numVars + 2 = _
        rw [hv])
      intro t₂ hnum₂ hsc₂ hmod₂
      rw [← hv] at hmod₂
      have hcomp := defining_comparator hcons.wellScoped hx1 hx2 hsc₂ hnum₂ hmod₂
      rw [wp_pure]
      refine ⟨hfree₃.trans (hfree₂.trans hfree),
        ⟨hstored₃.addVars_eq, hnum₂.trans hstored₃.numVars_eq⟩, hcons.trans hcomp,
        fun σ hσ j' hj' => ?_⟩
      obtain ⟨hgate, hσ₁⟩ := (hmod₂ σ).mp hσ
      rcases Nat.lt_succ_iff_lt_or_eq.mp hj' with hj' | rfl
      · exact hval σ hσ₁ j' hj'
      · rw [hv, hfree, ← Nat.add_assoc] at hgate
        exact hgate)
  apply wp_imp hgates
  intro b₁ t₁ hI
  obtain ⟨hfree, hstored, hcons, hval⟩ := hI
  -- The new variables are written between the ends of the block.
  have hwrite := wp_foldlM_range' (E := E) (b := (c, b₁)) (s := t₁) (k := 1)
    (m := 2 * L - 2)
    (f := fun s j => do
      let v ← s.2.nextVar
      pure (Function.update s.1 (i + j) v.1, v.2))
    (fun j s t' => t' = t₁ ∧ s.2.freeVar = b.freeVar + j ∧
      Stored base (b.freeVar + 2 * (L - 1)) s.2 t₁ ∧
      s.1 = merged base b.freeVar (j + 2) i c)
    ⟨rfl, hfree, hstored, by
      funext x
      rw [merged, if_neg (by omega)]⟩
    (fun j hj s t' hI => by
      obtain ⟨rfl, hfree', hstored', hs⟩ := hI
      rw [wp_bind]
      apply wp_nextVar hstored'
      intro b₂ hfree₂ hstored₂
      have hnone : s.2.freeVar + 1 - (b.freeVar + 2 * (L - 1)) = 0 := by omega
      have hmax : max (b.freeVar + 2 * (L - 1)) (s.2.freeVar + 1) =
          b.freeVar + 2 * (L - 1) := by omega
      rw [hnone, hmax] at hstored₂
      rw [hnone, wp_pure]
      refine ⟨rfl, by rw [hfree₂, hfree', Nat.add_assoc], hstored₂, ?_⟩
      funext x
      dsimp only
      rw [hs, hfree']
      by_cases hx : x = i + (1 + j)
      · subst hx
        rw [Function.update_self, merged, if_pos (by omega)]
        congr 1
        omega
      · rw [Function.update_of_ne hx, merged, merged]
        by_cases hin : i < x ∧ x < i + (j + 2) - 1
        · rw [if_pos hin, if_pos (by omega)]
        · rw [if_neg hin, if_neg (by omega)])
  apply wp_imp hwrite
  intro s t' hs
  obtain ⟨rfl, hfree', hstored', hsc⟩ := hs
  have hle : 2 * L - 2 + 2 = 2 * L := by omega
  rw [hle] at hsc
  obtain ⟨c', b'⟩ := s
  obtain rfl : c' = _ := hsc
  have hready : Ready base b' t' := by
    rw [Ready, hfree', show 2 * L - 2 = 2 * (L - 1) by omega]
    exact hstored'
  refine hQ b' t' hcons hready (fun x hx => ?_) fun σ hσ => ⟨?_, fun j hj => ?_,
    fun j hj => ?_, ?_⟩
  · rw [merged]
    split
    · change _ < t'.numVars
      rw [hstored.numVars_eq]
      omega
    · exact hcons.toGrows.known hx
  · rw [merged, if_neg (by omega)]
  · have h := (hval σ hσ j (by omega)).1
    rw [merged, if_pos (by omega), Lit.eval_var_true, ← h]
    congr 1
    omega
  · have h := (hval σ hσ j (by omega)).2
    rw [merged, if_pos (by omega), Lit.eval_var_true, ← h]
    congr 1
    omega
  · rw [merged, if_neg (by omega)]

/-! ## Bit reversal -/

theorem bitReverse_eq (p i : ℕ) : bitReverse (2 ^ p) i = reverseBits p i := by
  rw [bitReverse, Nat.clog_pow 2 p Nat.one_lt_two]
  induction p with
  | zero => rfl
  | succ p ih =>
      have hbit : (if i.testBit p then 1 else 0) = i / 2 ^ p % 2 := by
        rw [Nat.testBit_eq_decide_div_mod_eq]
        rcases Nat.mod_two_eq_zero_or_one (i / 2 ^ p) with h | h
        · simp [h]
        · simp [h]
      rw [List.range_succ, List.foldl_append, List.foldl_cons, List.foldl_nil, ih, hbit,
        reverseBits_succ]

theorem swapEntries_apply (c : ℕ → Lit) {i j : ℕ} (x : ℕ) :
    swapEntries c i j x = if x = j then c i else if x = i then c j else c x := by
  simp only [swapEntries, Function.update_apply]

/-- Moving pairs by bit reversal exchanges them with their mirror images. -/
theorem reversePairs_apply (p : ℕ) (c : ℕ → Lit) {u d : ℕ} (hu : u < 2 ^ p) (hd : d < 2) :
    reversePairs (2 ^ p) c (2 * u + d) = c (2 * reverseBits p u + d) := by
  -- After the rounds below `k`, the pairs with an end below `k` are exchanged.
  suffices hloop : ∀ k ≤ 2 ^ p, ∀ u < 2 ^ p, ∀ d < 2,
      (List.range k).foldl
        (fun c i =>
          if i < bitReverse (2 ^ p) i then
            swapEntries (swapEntries c (2 * i) (2 * bitReverse (2 ^ p) i)) (2 * i + 1)
              (2 * bitReverse (2 ^ p) i + 1)
          else c) c (2 * u + d) =
        if u < k ∨ reverseBits p u < k then c (2 * reverseBits p u + d)
        else c (2 * u + d) by
    have h := hloop _ le_rfl u hu d hd
    rw [if_pos (Or.inl hu)] at h
    exact h
  intro k
  induction k with
  | zero =>
      intro _ u _ d _
      rw [if_neg (by omega)]
      rfl
  | succ k ih =>
      intro hk u hu d hd
      have ih := ih (Nat.le_of_succ_le hk)
      have hrlt := reverseBits_lt p k
      have hrr := reverseBits_reverseBits (p := p) hk
      have huu := reverseBits_reverseBits hu
      have hu2 := ih u hu d hd
      rw [List.range_succ, List.foldl_append, List.foldl_cons, List.foldl_nil, bitReverse_eq]
      split
      · rename_i hlt
        rw [swapEntries_apply, swapEntries_apply, swapEntries_apply, swapEntries_apply]
        have hk0 := ih k hk 0 Nat.two_pos
        have hk1 := ih k hk 1 Nat.one_lt_two
        have hr0 := ih _ hrlt 0 Nat.two_pos
        have hr1 := ih _ hrlt 1 Nat.one_lt_two
        rw [Nat.add_zero, Nat.add_zero, if_neg (by omega)] at hk0 hr0
        rw [if_neg (by omega)] at hk1 hr1
        by_cases huk : u = k
        · subst huk
          rw [if_pos (Or.inl (Nat.lt_succ_self u))]
          obtain rfl | rfl : d = 0 ∨ d = 1 := by omega
          · rw [if_neg (by omega), if_neg (by omega), if_neg (by omega), if_pos (by omega),
              hr0]
            rfl
          · rw [if_neg (by omega), if_pos (by omega), if_neg (by omega), if_neg (by omega),
              hr1]
        · by_cases hur : u = reverseBits p k
          · subst hur
            rw [hrr, if_pos (Or.inr (Nat.lt_succ_self k))]
            obtain rfl | rfl : d = 0 ∨ d = 1 := by omega
            · rw [if_neg (by omega), if_neg (by omega), if_pos (by omega), hk0]
              rfl
            · rw [if_pos (by omega), if_neg (by omega), if_neg (by omega), hk1]
          · have hne : reverseBits p u ≠ k := fun h => hur (by rw [← h, huu])
            have hiff : (u < k + 1 ∨ reverseBits p u < k + 1) ↔
                (u < k ∨ reverseBits p u < k) := by omega
            rw [if_neg (by omega), if_neg (by omega), if_neg (by omega), if_neg (by omega),
              hu2]
            simp only [hiff]
      · rename_i hle
        rw [hu2]
        by_cases huk : u = k
        · subst huk
          rw [if_pos (Or.inl (Nat.lt_succ_self u))]
          by_cases heq : reverseBits p u = u
          · rw [heq, ite_self]
          · rw [if_pos (by omega)]
        · by_cases hur : u = reverseBits p k
          · subst hur
            rw [hrr, if_pos (Or.inl (by omega)), if_pos (Or.inl (by omega))]
          · have hne : reverseBits p u ≠ k := fun h => hur (by rw [← h, huu])
            have hiff : (u < k + 1 ∨ reverseBits p u < k + 1) ↔
                (u < k ∨ reverseBits p u < k) := by omega
            simp only [hiff]

end CardinalityNetworkBuilder

end Triangulator
