import Triangulator.Verification.FrozenLiterals
import Triangulator.Verification.Totalizer

/-!
# The totalizer and the freeze discipline

The outputs of the nodes are frozen when they are created.  The inputs are mentioned again
by the nodes with a leaf below them, and a node with three inputs gets its last output only
when the second size is built.
-/

namespace Triangulator

open AbortM

namespace TotalizerBuilder

variable {t t' : Trace} {tb tb' : TotalizerBuilder}

/-! ## Frozen outputs -/

/-- The literals of a node above the leaves are frozen. -/
def NodeKept (tb : TotalizerBuilder) (t : Trace) (i l r : ℕ) : Prop :=
  l ≠ r → ∀ y ∈ tb.nLits i, y.Kept t

theorem NodeKept.congr {i l r : ℕ} (h : NodeKept tb t i l r) (ht : t.Adds t')
    (hlits : tb'.nLits i = tb.nLits i) : NodeKept tb' t' i l r := by
  intro hne y hy
  rw [hlits] at hy
  exact (h hne y hy).adds ht

theorem getD_usable {ls : List Lit} (h : ∀ y ∈ ls, y.usable t = true) (i : ℕ) :
    (ls.getD i .undef).usable t = true := by
  by_cases hi : i < ls.length
  · rw [List.getD_eq_getElem _ _ hi]
    exact h _ (List.getElem_mem hi)
  · rw [List.getD_eq_default _ _ (by omega)]
    rfl

/-- A new output is frozen. -/
theorem wp_storeOutput_kept {i x : ℕ} (hkept : ∀ y ∈ tb.nLits i, y.Kept t)
    (hdisc : t.disciplined = true) :
    wp (tb.storeOutput i x) (fun tb' t' => t.Adds t' ∧ t'.disciplined = true ∧
      (∀ y ∈ tb'.nLits i, y.Kept t') ∧ ∀ j, j ≠ i → tb'.nLits j = tb.nLits j)
      (fun _ => True) t := by
  have hpush : ∀ {l : Lit} {t' : Trace}, t.Adds t' → l.Kept t' →
      (∀ y ∈ (tb.push i l).nLits i, y.Kept t') ∧
        ∀ j, j ≠ i → (tb.push i l).nLits j = tb.nLits j := by
    intro l t' ht hl
    refine ⟨fun y hy => ?_, fun j hj => by rw [push_nLits, if_neg hj]⟩
    rw [push_nLits, if_pos rfl] at hy
    rcases List.mem_append.mp hy with hy | hy
    · exact (hkept y hy).adds ht
    · obtain rfl := List.mem_singleton.mp hy
      exact hl
  rw [storeOutput]
  apply wp_ite
  · intro _
    rw [wp_bind]
    exact wp_assert_any ⟨Trace.Adds.refl t, hdisc, hkept, fun _ _ => rfl⟩
  intro _
  rw [wp_bind, pushOutput]
  apply wp_ite
  · intro _
    rw [wp_pure, wp_bind]
    apply wp_assert_any
    exact ⟨Trace.Adds.refl t, hdisc, hpush (Trace.Adds.refl t) trivial⟩
  · intro _
    rw [wp_bind, wp_newVar, wp_bind]
    apply wp_freezeVar (Nat.lt_succ_self _)
    rw [wp_pure, wp_bind]
    apply wp_assert_any
    have hadds := (Trace.Adds.refl t).newVar.freezeVar (b := true) le_rfl (Nat.lt_succ_self _)
    exact ⟨hadds, hdisc, hpush hadds Lit.Kept.of_new⟩

/-- The clauses only mention the literals of the node and its children. -/
theorem wp_outputClauses_usable {L R T : List Lit} {x : ℕ}
    (hL : ∀ y ∈ L, y.usable t = true) (hR : ∀ y ∈ R, y.usable t = true)
    (hT : ∀ y ∈ T, y.usable t = true) (hdisc : t.disciplined = true) :
    wp (outputClauses L R T x) (fun _ t' => t.Adds t' ∧ t'.disciplined = true)
      (fun _ => True) t := by
  apply wp_forM_inv (fun t' => t.Adds t' ∧ t'.disciplined = true) ⟨Trace.Adds.refl t, hdisc⟩
  rintro a - t' ⟨hadds, hdisc'⟩
  apply wp_when
  · intro _
    apply wp_addClause_any
    refine ⟨hadds.addClause _, Trace.disciplined_addClause hdisc' ?_⟩
    simp only [List.mem_cons, List.not_mem_nil, or_false, forall_eq_or_imp, forall_eq,
      Lit.usable_neg, Lit.usable_adds hadds]
    exact ⟨getD_usable hL a, getD_usable hR (x - a), getD_usable hT x⟩
  · exact fun _ => ⟨hadds, hdisc'⟩

/-- One output of a node. -/
theorem wp_buildNode_kept {i x : ℕ} (hi : 1 ≤ i) (hkept : ∀ y ∈ tb.nLits i, y.Kept t)
    (hdisc : t.disciplined = true) (hleft : ∀ y ∈ tb.nLits (i * 2), y.usable t = true)
    (hright : ∀ y ∈ tb.nLits (i * 2 + 1), y.usable t = true) :
    wp (buildNode i (i * 2) (i * 2 + 1) x tb) (fun tb' t' => t.Adds t' ∧
      t'.disciplined = true ∧ (∀ y ∈ tb'.nLits i, y.Kept t') ∧
      ∀ j, j ≠ i → tb'.nLits j = tb.nLits j) (fun _ => True) t := by
  rw [buildNode, wp_bind]
  apply wp_assert_any
  rw [wp_bind]
  apply wp_imp (wp_storeOutput_kept hkept hdisc)
  rintro tb₁ t₁ ⟨hadds, hdisc₁, hkept₁, hframe⟩
  have hchild : ∀ j, j ≠ i → (∀ y ∈ tb.nLits j, y.usable t = true) →
      ∀ y ∈ tb₁.nLits j, y.usable t₁ = true := by
    intro j hj hall y hy
    rw [Lit.usable_adds hadds]
    exact hall y (hframe j hj ▸ hy)
  rw [wp_bind]
  apply wp_imp (wp_outputClauses_usable (hchild _ (by omega) hleft) (hchild _ (by omega) hright)
    (fun y hy => (hkept₁ y hy).usable) hdisc₁)
  rintro _ t₂ ⟨hadds₂, hdisc₂⟩
  rw [wp_pure]
  exact ⟨hadds.trans hadds₂, hdisc₂, fun y hy => (hkept₁ y hy).adds hadds₂, hframe⟩

/-- The loop over the outputs of a node. -/
theorem wp_outputs_kept {i first count : ℕ} (hi : 1 ≤ i) (hkept : ∀ y ∈ tb.nLits i, y.Kept t)
    (hdisc : t.disciplined = true)
    (hchildren : 0 < count → (∀ y ∈ tb.nLits (i * 2), y.usable t = true) ∧
      ∀ y ∈ tb.nLits (i * 2 + 1), y.usable t = true) :
    wp ((List.range' first count).foldlM
        (fun tb x => buildNode i (i * 2) (i * 2 + 1) x tb) tb)
      (fun tb' t' => t.Adds t' ∧ t'.disciplined = true ∧ (∀ y ∈ tb'.nLits i, y.Kept t') ∧
        ∀ j, j ≠ i → tb'.nLits j = tb.nLits j) (fun _ => True) t := by
  apply wp_foldlM_range' (fun _ (tb' : TotalizerBuilder) t' => t.Adds t' ∧
    t'.disciplined = true ∧ (∀ y ∈ tb'.nLits i, y.Kept t') ∧
      ∀ j, j ≠ i → tb'.nLits j = tb.nLits j)
  · exact ⟨Trace.Adds.refl t, hdisc, hkept, fun _ _ => rfl⟩
  rintro k hk tb₁ t₁ ⟨hadds, hdisc₁, hkept₁, hframe⟩
  obtain ⟨hleft, hright⟩ := hchildren (Nat.zero_lt_of_lt hk)
  have hchild : ∀ j, j ≠ i → (∀ y ∈ tb.nLits j, y.usable t = true) →
      ∀ y ∈ tb₁.nLits j, y.usable t₁ = true := by
    intro j hj hall y hy
    rw [Lit.usable_adds hadds]
    exact hall y (hframe j hj ▸ hy)
  apply wp_imp (wp_buildNode_kept hi hkept₁ hdisc₁ (hchild _ (by omega) hleft)
    (hchild _ (by omega) hright))
  rintro tb₂ t₂ ⟨hadds₂, hdisc₂, hkept₂, hframe₂⟩
  exact ⟨hadds.trans hadds₂, hdisc₂, hkept₂, fun j hj => (hframe₂ j hj).trans (hframe j hj)⟩

/-- No node with a leaf below it gets another output from `first` on. -/
def LeavesDone (first : ℕ) : ℕ → ℕ → ℕ → ℕ → Prop :=
  AllNodes fun _ l r => l < r → r ≤ l + 2 → r + 1 < first + l

/-- The literals of a complete child can be mentioned. -/
theorem child_usable {c i l r : ℕ} (h : NodeInv tb t c i l r) (hkept : NodeKept tb t i l r)
    (hinput : l = r → ∀ y ∈ tb.input, y.usable t = true) :
    ∀ y ∈ tb.nLits i, y.usable t = true := by
  intro y hy
  by_cases hne : l = r
  · rw [h.leaf hne] at hy
    split at hy
    · cases hy
    · rcases List.mem_cons.mp hy with rfl | hy
      · rfl
      · obtain rfl := List.mem_singleton.mp hy
        exact getD_usable (hinput hne) l
  · exact (hkept hne y hy).usable

/-- Building more outputs keeps the discipline when the inputs can be mentioned or are not
needed. -/
theorem wp_build_kept {c₀ size fuel i l r : ℕ} (ht : t.Scoped) (hi : 1 ≤ i)
    (hroot : i = 1 → l < r) (hlr : l ≤ r) (hr : r < tb.input.length) (hfuel : r + 1 - l ≤ fuel)
    (hinput : ∀ y ∈ tb.input, y.Valid t.numVars) (hsize : 1 ≤ size) (hc : c₀ ≤ size + 1)
    (hcur : (tb.curSize + 1).toNat = c₀) (h : AllNodes (NodeInv tb t c₀) fuel i l r)
    (hdisc : t.disciplined = true) (hkept : AllNodes (NodeKept tb t) fuel i l r)
    (hleaves : (∀ y ∈ tb.input, y.usable t = true) ∨ LeavesDone c₀ fuel i l r) :
    wp (build size fuel i l r tb) (fun tb' t' => t.Adds t' ∧ t'.disciplined = true ∧
      AllNodes (NodeKept tb' t') fuel i l r) (fun _ => True) t := by
  induction fuel generalizing t tb i l r with
  | zero => omega
  | succ fuel ih =>
      rw [build, wp_bind]
      apply wp_assert_any
      rw [wp_bind]
      apply wp_assert_any
      by_cases hne : l = r
      · subst hne
        rw [if_pos rfl, buildLeaf, wp_bind]
        apply wp_assert_any
        exact ⟨Trace.Adds.refl t, hdisc, fun hne => absurd rfl hne, fun hne => absurd rfl hne⟩
      · obtain ⟨hnode, hsub⟩ := h
        obtain ⟨hleft, hright⟩ := hsub hne
        obtain ⟨hnodek, hsubk⟩ := hkept
        obtain ⟨hleftk, hrightk⟩ := hsubk hne
        have hlt : l < r := lt_of_le_of_ne hlr hne
        rw [if_neg hne]
        dsimp only
        rw [wp_bind]
        apply wp_imp (wp_and_of_total
          (wp_build (E := fun _ => False) ht (by omega) (fun hi1 => by omega) (by omega) (by omega)
            (by omega) hinput hsize hc hcur hleft)
          (ih ht (by omega) (fun hi1 => by omega) (by omega) (by omega) (by omega) hinput hcur
            hleft hdisc hleftk (hleaves.imp_right fun hl => (hl.2 hne).1)))
        rintro tb₁ t₁ ⟨h₁, hadds₁, hdisc₁, hleftk₁⟩
        have hinput₁ : ∀ y ∈ tb₁.input, y.Valid t₁.numVars := fun y hy =>
          h₁.grows.valid (hinput y (h₁.input_eq ▸ hy))
        have hframe₁ : ∀ j, Under (i * 2 + 1) j → tb₁.nLits j = tb.nLits j := fun j hj =>
          h₁.frame j (Or.inl fun hj' => Under.not_both hi hj' hj)
        have hself₁ : tb₁.nLits i = tb.nLits i :=
          h₁.frame i (Or.inl fun hu => by have := hu.le; omega)
        have hright₁ : AllNodes (NodeInv tb₁ t₁ c₀) fuel (i * 2 + 1) ((l + r) / 2 + 1) r :=
          hright.imp (by omega) hr fun j l' r' hj _ _ hn =>
            hn.congr h₁.grows (hframe₁ j hj) h₁.input_eq
        have hrightk₁ : AllNodes (NodeKept tb₁ t₁) fuel (i * 2 + 1) ((l + r) / 2 + 1) r :=
          hrightk.imp (by omega) hr fun j l' r' hj _ _ hn => hn.congr hadds₁ (hframe₁ j hj)
        have husable₁ : (∀ y ∈ tb.input, y.usable t = true) →
            ∀ y ∈ tb₁.input, y.usable t₁ = true := fun hall y hy => by
          rw [Lit.usable_adds hadds₁]
          exact hall y (h₁.input_eq ▸ hy)
        rw [wp_bind]
        apply wp_imp (wp_and_of_total
          (wp_build (E := fun _ => False) h₁.grows.wellScoped (by omega) (fun hi1 => by omega)
            (by omega) (h₁.input_eq ▸ hr) (by omega) hinput₁ hsize hc (h₁.curSize_eq ▸ hcur)
            hright₁)
          (ih h₁.grows.wellScoped (by omega) (fun hi1 => by omega) (by omega)
            (h₁.input_eq ▸ hr) (by omega) hinput₁ (h₁.curSize_eq ▸ hcur) hright₁ hdisc₁ hrightk₁
            (hleaves.imp husable₁ fun hl => (hl.2 hne).2)))
        rintro tb₂ t₂ ⟨h₂, hadds₂, hdisc₂, hrightk₂⟩
        have hframe₂ : ∀ j, Under (i * 2) j → tb₂.nLits j = tb₁.nLits j := fun j hj =>
          h₂.frame j (Or.inl fun hj' => Under.not_both hi hj hj')
        have hself₂ : tb₂.nLits i = tb.nLits i :=
          (h₂.frame i (Or.inl fun hu => by have := hu.le; omega)).trans hself₁
        have hadds := hadds₁.trans hadds₂
        have hleft₂ : AllNodes (NodeInv tb₂ t₂ (size + 1)) fuel (i * 2) l ((l + r) / 2) :=
          h₁.nodes.imp (by omega) (by omega : (l + r) / 2 < tb.input.length)
            fun j l' r' hj _ _ hn => hn.congr h₂.grows (hframe₂ j hj) h₂.input_eq
        have hleftk₂ : AllNodes (NodeKept tb₂ t₂) fuel (i * 2) l ((l + r) / 2) :=
          hleftk₁.imp (by omega) (by omega : (l + r) / 2 < tb.input.length)
            fun j l' r' hj _ _ hn => hn.congr hadds₂ (hframe₂ j hj)
        have husable₂ : (∀ y ∈ tb.input, y.usable t = true) →
            ∀ y ∈ tb₂.input, y.usable t₂ = true := fun hall y hy => by
          rw [Lit.usable_adds hadds₂]
          exact husable₁ hall y (h₂.input_eq ▸ hy)
        rw [h₂.curSize_eq, h₁.curSize_eq, hcur]
        obtain ⟨fuel, rfl⟩ : ∃ f, fuel = f + 1 := ⟨fuel - 1, by omega⟩
        have hnodek₂ : ∀ y ∈ tb₂.nLits i, y.Kept t₂ := fun y hy =>
          (hnodek hne y (hself₂ ▸ hy)).adds hadds
        apply wp_imp (wp_outputs_kept hi hnodek₂ hdisc₂ fun hcount => ?_)
        · rintro tb₃ t₃ ⟨hadds₃, hdisc₃, hkept₃, hframe₃⟩
          have hbelow : ∀ {i' j}, i < i' → Under i' j → tb₃.nLits j = tb₂.nLits j :=
            fun hii' hu => hframe₃ _ (by have := hu.le; omega)
          refine ⟨hadds.trans hadds₃, hdisc₃, fun _ => hkept₃, fun _ => ⟨?_, ?_⟩⟩
          · exact hleftk₂.imp (by omega) (by omega : (l + r) / 2 < tb.input.length)
              fun j l' r' hj _ _ hn => hn.congr hadds₃ (hbelow (by omega) hj)
          · exact hrightk₂.imp (by omega) hr fun j l' r' hj _ _ hn =>
              hn.congr hadds₃ (hbelow (by omega) hj)
        · -- A leaf below the node can be mentioned, since its outputs are not all there.
          have hleaf : r ≤ l + 2 → ∀ y ∈ tb₂.input, y.usable t₂ = true := by
            intro hshort
            rcases hleaves with hall | hdone
            · exact husable₂ hall
            · have hlast := hdone.1 hlt hshort
              omega
          exact ⟨child_usable hleft₂.1 hleftk₂.1 fun _ => hleaf (by omega),
            child_usable h₂.nodes.1 hrightk₂.1 fun _ => hleaf (by omega)⟩

/-! ## A node with three inputs -/

/-- The children of a node keep their literals. -/
theorem wp_storeOutput_frame {i x : ℕ} :
    wp (tb.storeOutput i x) (fun tb' _ => ∀ j, j ≠ i → tb'.nLits j = tb.nLits j)
      (fun _ => True) t := by
  have hpush : ∀ l : Lit, ∀ j, j ≠ i → (tb.push i l).nLits j = tb.nLits j :=
    fun l j hj => by rw [push_nLits, if_neg hj]
  rw [storeOutput]
  apply wp_ite
  · intro _
    rw [wp_bind]
    exact wp_assert_any fun _ _ => rfl
  intro _
  rw [wp_bind, pushOutput]
  apply wp_ite
  · intro _
    rw [wp_pure, wp_bind]
    exact wp_assert_any (hpush _)
  · intro _
    rw [wp_bind, wp_newVar, wp_bind]
    apply wp_freezeVar_any
    rw [wp_pure, wp_bind]
    exact wp_assert_any (hpush _)

/-- The third output of a node over two inputs on the left and one on the right is about the
right input. -/
theorem wp_buildNode_violates {i : ℕ} {y : Lit} (hi : 1 ≤ i)
    (hleft : (tb.nLits (i * 2)).length = 3) (hright : tb.nLits (i * 2 + 1) = [.trueLit, y])
    (hy : y.usable t = false) :
    wp (buildNode i (i * 2) (i * 2 + 1) 3 tb) (fun _ t' => t'.disciplined = false)
      (fun _ => True) t := by
  rw [buildNode, wp_bind]
  apply wp_assert_any
  rw [wp_bind]
  have hstore : wp (tb.storeOutput i 3) (fun _ t' => y.usable t' = false)
      (fun t' => y.usable t' = false) t :=
    builds_storeOutput.logs.wp fun calls _ => Lit.usable_append hy calls
  apply wp_imp (wp_and wp_storeOutput_frame (wp_mono hstore (fun _ _ h => h) fun _ _ => trivial))
  rintro tb₁ t₁ ⟨hframe, hy₁⟩
  rw [hframe (i * 2) (by omega), hframe (i * 2 + 1) (by omega), hright, wp_bind]
  -- Only two true inputs on the left and one on the right are three.
  have hclause : wp (outputClauses (tb.nLits (i * 2)) [.trueLit, y] (tb₁.nLits i) 3)
      (fun _ t' => t'.disciplined = false) (fun _ => True) t₁ := by
    have hround : ∀ a < 4, wp (when (a < (tb.nLits (i * 2)).length ∧
          3 - a < [Lit.trueLit, y].length)
        (addClause [-(tb.nLits (i * 2)).getD a .undef, -[Lit.trueLit, y].getD (3 - a) .undef,
          (tb₁.nLits i).getD 3 .undef]))
        (fun _ t' => (a ≠ 2 ∧ t' = t₁) ∨ t'.disciplined = false) (fun _ => True) t₁ := by
      intro a _
      apply wp_when
      · rintro ⟨ha, ha'⟩
        rw [hleft] at ha
        rw [List.length_cons, List.length_singleton] at ha'
        obtain rfl : a = 2 := by omega
        apply wp_addClause_any
        refine Or.inr (Trace.not_disciplined_addClause (l := -y) ?_ ?_)
        · exact List.mem_cons_of_mem _ List.mem_cons_self
        · rw [Lit.usable_neg, hy₁]
      · intro hnot
        rw [hleft, List.length_cons, List.length_singleton] at hnot
        exact Or.inl ⟨by omega, rfl⟩
    apply wp_forM_until
    · intro a ha
      exact wp_imp (hround a (List.mem_range.mp ha)) fun _ _ h => h.imp_left And.right
    · intro a t' ht'
      exact wp_undisciplined (builds_addClause (P := Event.Build) trivial).when ht'
    · refine ⟨2, List.mem_range.mpr (by omega), ?_⟩
      exact wp_imp (hround 2 (by omega)) fun _ _ h => h.resolve_left fun h => h.1 rfl
  exact wp_imp hclause fun _ _ h => h

/-- No node has three inputs. -/
def NoThree : ℕ → ℕ → ℕ → ℕ → Prop :=
  AllNodes fun _ l r => r ≠ l + 2

/-- Building the size three after the size two needs the right inputs of the nodes over
three inputs. -/
theorem wp_build_violates {fuel i l r : ℕ} (ht : t.Scoped) (hi : 1 ≤ i)
    (hroot : i = 1 → l < r) (hlr : l ≤ r) (hr : r < tb.input.length) (hfuel : r + 1 - l ≤ fuel)
    (hinput : ∀ y ∈ tb.input, y.Valid t.numVars) (hcur : (tb.curSize + 1).toNat = 3)
    (h : AllNodes (NodeInv tb t 3) fuel i l r) (hun : ∀ y ∈ tb.input, y.usable t = false)
    (hthree : ¬NoThree fuel i l r) :
    wp (build 3 fuel i l r tb) (fun _ t' => t'.disciplined = false) (fun _ => True) t := by
  induction fuel generalizing t tb i l r with
  | zero => omega
  | succ fuel ih =>
      have hne : l ≠ r := by
        rintro rfl
        exact hthree ⟨by omega, fun hne => absurd rfl hne⟩
      obtain ⟨hnode, hsub⟩ := h
      obtain ⟨hleft, hright⟩ := hsub hne
      have hgrow : ∀ (i' l' r' : ℕ) (tb : TotalizerBuilder) (t : Trace),
          wp (build 3 fuel i' l' r' tb) (fun _ t' => ∃ calls, t' = calls ++ t)
            (fun _ => True) t := fun i' l' r' tb t =>
        wp_mono (builds_build.logs.wp (R := fun t' => ∃ calls, t' = calls ++ t)
          fun calls _ => ⟨calls, rfl⟩) (fun _ _ h => h) fun _ _ => trivial
      rw [build, wp_bind]
      apply wp_assert_any
      rw [wp_bind]
      apply wp_assert_any
      rw [if_neg hne]
      dsimp only
      by_cases hl : NoThree fuel (i * 2) l ((l + r) / 2)
      swap
      · rw [wp_bind]
        apply wp_imp (ih ht (by omega) (fun hi1 => by omega) (by omega) (by omega) (by omega)
          hinput hcur hleft hun hl)
        intro tb₁ t₁ hd
        exact wp_undisciplined (builds_build.bind fun _ => builds_outputs _) hd
      rw [wp_bind]
      apply wp_imp (wp_and (wp_build ht (by omega) (fun hi1 => by omega) (by omega) (by omega)
        (by omega) hinput (by omega) (by omega) hcur hleft) (hgrow _ _ _ tb t))
      rintro tb₁ t₁ ⟨h₁, calls, rfl⟩
      have hinput₁ : ∀ y ∈ tb₁.input, y.Valid (Trace.numVars (calls ++ t)) := fun y hy =>
        h₁.grows.valid (hinput y (h₁.input_eq ▸ hy))
      have hun₁ : ∀ y ∈ tb₁.input, y.usable (calls ++ t) = false := fun y hy =>
        Lit.usable_append (hun y (h₁.input_eq ▸ hy)) calls
      have hright₁ : AllNodes (NodeInv tb₁ (calls ++ t) 3) fuel (i * 2 + 1)
          ((l + r) / 2 + 1) r :=
        hright.imp (by omega) hr fun j l' r' hj _ _ hn => hn.congr h₁.grows
          (h₁.frame j (Or.inl fun hj' => Under.not_both hi hj' hj)) h₁.input_eq
      by_cases hr' : NoThree fuel (i * 2 + 1) ((l + r) / 2 + 1) r
      swap
      · rw [wp_bind]
        apply wp_imp (ih h₁.grows.wellScoped (by omega) (fun hi1 => by omega) (by omega)
          (h₁.input_eq ▸ hr) (by omega) hinput₁ (h₁.curSize_eq ▸ hcur) hright₁ hun₁ hr')
        intro tb₂ t₂ hd
        exact wp_undisciplined (builds_outputs _) hd
      -- The node itself has three inputs.
      have hrl : r = l + 2 := by
        by_contra hrl
        exact hthree ⟨hrl, fun _ => ⟨hl, hr'⟩⟩
      have hmid : (l + r) / 2 = l + 1 := by omega
      rw [wp_bind]
      apply wp_imp (wp_and (wp_build h₁.grows.wellScoped (by omega) (fun hi1 => by omega)
        (by omega) (h₁.input_eq ▸ hr) (by omega) hinput₁ (by omega) (by omega)
        (h₁.curSize_eq ▸ hcur) hright₁) (hgrow _ _ _ tb₁ (calls ++ t)))
      rintro tb₂ t₂ ⟨h₂, calls₂, rfl⟩
      obtain ⟨fuel, rfl⟩ : ∃ f, fuel = f + 1 := ⟨fuel - 1, by omega⟩
      have hleft₂ := h₁.nodes.1
      rw [hmid] at hleft₂
      have hlen : (tb₂.nLits (i * 2)).length = 3 := by
        rw [h₂.frame (i * 2) (Or.inl fun hj => Under.not_both hi (Under.refl _) hj),
          hleft₂.length_eq (by omega), if_neg (by omega)]
        omega
      have hleaf : tb₂.nLits (i * 2 + 1) = [.trueLit, tb₂.input.getD r .undef] := by
        rw [h₂.nodes.1.leaf (by omega), if_neg (by omega), hmid, hrl]
      have hlast : (tb₂.input.getD r .undef).usable (calls₂ ++ (calls ++ t)) = false := by
        have hr₂ : r < tb₂.input.length := by
          rw [h₂.input_eq, h₁.input_eq]
          exact hr
        rw [List.getD_eq_getElem _ _ hr₂]
        apply Lit.usable_append (hun₁ _ _)
        rw [← h₂.input_eq]
        exact List.getElem_mem hr₂
      rw [h₂.curSize_eq, h₁.curSize_eq, hcur, hrl,
        show min 3 (l + 2 - l + 1) + 1 - 3 = 1 by omega, List.range'_one, List.foldlM_cons,
        wp_bind]
      exact wp_imp (wp_buildNode_violates hi hlen hleaf hlast) fun _ _ h => h

/-! ## Building to a size -/

theorem AllNodes.of_forall {P : ℕ → ℕ → ℕ → Prop} (h : ∀ i l r, P i l r) (fuel i l r : ℕ) :
    AllNodes P fuel i l r := by
  induction fuel generalizing i l r with
  | zero => trivial
  | succ fuel ih => exact ⟨h i l r, fun _ => ⟨ih _ _ _, ih _ _ _⟩⟩

/-- From the fourth output on no node with a leaf below it is extended. -/
theorem leavesDone_of_four {first : ℕ} (h : 4 ≤ first) (fuel i l r : ℕ) :
    LeavesDone first fuel i l r :=
  AllNodes.of_forall (fun _ _ _ _ _ => by omega) fuel i l r

/-- The third output only extends the nodes over three inputs. -/
theorem NoThree.leavesDone {fuel i l r m : ℕ} (h : NoThree fuel i l r) (hlr : l ≤ r)
    (hr : r < m) : LeavesDone 3 fuel i l r :=
  AllNodes.imp h hlr hr fun _ _ _ _ _ _ hne _ _ => by omega

/-- Two powers of two that differ by at most one are equal, or they are two and one. -/
theorem two_pow_halves {a b p q : ℕ} (hp : a = 2 ^ p) (hq : b = 2 ^ q) (hba : b ≤ a)
    (hab : a ≤ b + 1) : a = b ∨ b = 1 := by
  rcases Nat.eq_zero_or_pos q with rfl | hpos
  · exact Or.inr hq
  · left
    have hle : q ≤ p := (Nat.pow_le_pow_iff_right one_lt_two).mp (hp ▸ hq ▸ hba)
    obtain ⟨d, rfl⟩ := Nat.exists_eq_add_of_le hle
    obtain ⟨q, rfl⟩ := Nat.exists_eq_add_of_lt hpos
    cases d with
    | zero => exact hp.trans hq.symm
    | succ d =>
        -- The larger one is at least twice the smaller one, which is even.
        have htwo : 2 ^ (0 + q + 1) * 2 ≤ 2 ^ (0 + q + 1 + (d + 1)) := by
          rw [← pow_succ]
          exact Nat.pow_le_pow_right two_pos (by omega)
        have hlarge : 2 ≤ 2 ^ (0 + q + 1) := by
          rw [pow_succ]
          have := Nat.two_pow_pos (0 + q)
          omega
        omega

/-- The ranges of the nodes are halved until they are single inputs, so there is a node over
three inputs unless their number is a power of two. -/
theorem noThree_iff {fuel i l r : ℕ} (hlr : l ≤ r) (hfuel : r + 1 - l ≤ fuel) :
    NoThree fuel i l r ↔ ∃ p, r + 1 - l = 2 ^ p := by
  induction fuel generalizing i l r with
  | zero => omega
  | succ fuel ih =>
      by_cases hne : l = r
      · subst hne
        refine ⟨fun _ => ⟨0, by omega⟩, fun _ => ⟨by omega, fun hne => absurd rfl hne⟩⟩
      have hlt : l < r := lt_of_le_of_ne hlr hne
      constructor
      · rintro ⟨hthree, hsub⟩
        obtain ⟨hleft, hright⟩ := hsub hne
        obtain ⟨p, hp⟩ := (ih (by omega) (by omega)).mp hleft
        obtain ⟨q, hq⟩ := (ih (by omega) (by omega)).mp hright
        refine ⟨p + 1, ?_⟩
        rw [pow_succ]
        rcases two_pow_halves hp hq (by omega) (by omega) with heq | hone
        · omega
        · omega
      · rintro ⟨p, hp⟩
        cases p with
        | zero => omega
        | succ p =>
            rw [pow_succ] at hp
            refine ⟨by have := Nat.two_pow_pos p; omega, fun _ => ⟨?_, ?_⟩⟩
            · exact (ih (by omega) (by omega)).mpr ⟨p, by omega⟩
            · exact (ih (by omega) (by omega)).mpr ⟨p, by omega⟩

/-- The literals of all nodes above the leaves are frozen. -/
def Kept (tb : TotalizerBuilder) (t : Trace) : Prop :=
  AllNodes (NodeKept tb t) tb.input.length 1 0 (tb.input.length - 1)

theorem Kept.append {calls : Trace} (h : Kept tb t) (h2 : 2 ≤ tb.input.length) :
    Kept tb (calls ++ t) :=
  h.imp (Nat.zero_le _) (by omega : tb.input.length - 1 < tb.input.length)
    fun _ _ _ _ _ _ hn hne y hy => (hn hne y hy).append calls

/-- `BuildToSize` keeps the discipline when the inputs can be mentioned or are not
needed. -/
theorem wp_buildToSize_kept {size : ℕ} {out : List Lit} (ht : t.Scoped) (h : Inv tb t out)
    (hdisc : t.disciplined = true) (hkept : Kept tb t)
    (hleaves : (∀ y ∈ tb.input, y.usable t = true) ∨
      LeavesDone (tb.curSize + 1).toNat tb.input.length 1 0 (tb.input.length - 1)) :
    wp (buildToSize size tb) (fun tb' t' => t.Adds t' ∧ t'.disciplined = true ∧ Kept tb' t')
      (fun _ => True) t := by
  have h2 := h.two_le
  rw [buildToSize, wp_bind, wp_assert]
  by_cases hle : size ≤ tb.input.length
  swap
  · rw [if_neg (by simpa using hle)]
    trivial
  rw [if_pos (decide_eq_true hle), wp_bind, wp_assert]
  by_cases hcur : tb.curSize ≤ size
  swap
  · rw [if_neg (by simpa using hcur)]
    trivial
  rw [if_pos (decide_eq_true hcur), wp_bind, wp_assert]
  by_cases hsize : 1 ≤ size
  swap
  · rw [if_neg (by simpa using hsize)]
    trivial
  rw [if_pos (decide_eq_true hsize)]
  apply wp_ite
  · exact fun _ => ⟨Trace.Adds.refl t, hdisc, hkept⟩
  intro _
  rw [wp_bind]
  apply wp_imp (wp_and (wp_build ht le_rfl (fun _ => by omega) (Nat.zero_le _) (by omega)
    (by omega) h.valid hsize (by omega) rfl h.nodes)
    (wp_build_kept ht le_rfl (fun _ => by omega) (Nat.zero_le _) (by omega) (by omega) h.valid
      hsize (by omega) rfl h.nodes hdisc hkept hleaves))
  rintro tb₁ t₁ ⟨h₁, hadds, hdisc₁, hkept₁⟩
  rw [wp_pure]
  refine ⟨hadds, hdisc₁, ?_⟩
  rw [Kept, h₁.input_eq]
  exact hkept₁

/-- `BuildToSize` to the size three breaks it when the inputs cannot be mentioned and are
needed. -/
theorem wp_buildToSize_violates {out : List Lit} (ht : t.Scoped) (h : Inv tb t out)
    (hcur : tb.curSize = 2) (hun : ∀ y ∈ tb.input, y.usable t = false)
    (hpow : ¬∃ p, tb.input.length = 2 ^ p) :
    wp (buildToSize 3 tb) (fun _ t' => t'.disciplined = false) (fun _ => True) t := by
  have h2 := h.two_le
  have hthree : ¬NoThree tb.input.length 1 0 (tb.input.length - 1) := by
    rw [noThree_iff (Nat.zero_le _) (by omega),
      show tb.input.length - 1 + 1 - 0 = tb.input.length by omega]
    exact hpow
  have hnodes := h.nodes
  rw [hcur] at hnodes
  rw [buildToSize, wp_bind]
  apply wp_assert_any
  rw [wp_bind]
  apply wp_assert_any
  rw [wp_bind]
  apply wp_assert_any
  rw [if_neg (by rw [hcur]; omega), wp_bind]
  apply wp_imp (wp_build_violates ht le_rfl (fun _ => by omega) (Nat.zero_le _) (by omega)
    (by omega) h.valid (by rw [hcur]; rfl) hnodes hun hthree)
  exact fun _ _ h => h

end TotalizerBuilder

end Triangulator
