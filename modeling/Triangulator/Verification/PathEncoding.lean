import Triangulator.Verification.Connectivity

/-!
# The path length encoding

The clauses of `BuildPathLengthEncoding` bound the connectivity values from above:
connected vertices are linked past the solution.
-/

namespace Triangulator

open AbortM SimpleGraph

namespace Enumerator

variable {n : ℕ} {g : Graph n} {t t' : Trace} {E : Trace → Prop}

/-! ## The order of the variables -/

/-- The number of triples that the loops visit before `(j, a, b)`. -/
def position (n j a b : ℕ) : ℕ :=
  (j * n + a) * n + b

theorem position_succ (n j a b : ℕ) : position n j a (b + 1) = position n j a b + 1 := rfl

theorem position_row (n j a : ℕ) : position n j (a + 1) 0 = position n j a n := by
  rw [position, position]
  ring

theorem position_block (n j : ℕ) : position n (j + 1) 0 0 = position n j n 0 := by
  rw [position, position]
  ring

theorem position_inj {j j' : ℕ} {a a' b b' : Fin n}
    (h : position n j a b = position n j' a' b') : j = j' ∧ a = a' ∧ b = b' := by
  have hb := b.isLt
  have hb' := b'.isLt
  have hn : 0 < n := Fin.pos a
  have hdiv : ∀ x (y : Fin n), (x * n + y) / n = x := fun x y => by
    rw [Nat.mul_comm, Nat.mul_add_div hn, Nat.div_eq_of_lt y.isLt, Nat.add_zero]
  have hmod : ∀ x (y : Fin n), (x * n + y) % n = y := fun x y => by
    rw [Nat.mul_comm, Nat.mul_add_mod, Nat.mod_eq_of_lt y.isLt]
  have hrow : j * n + a = j' * n + a' := by
    have := congrArg (· / n) h
    simpa only [position, hdiv] using this
  refine ⟨?_, ?_, ?_⟩
  · have := congrArg (· / n) hrow
    simpa only [hdiv] using this
  · have := congrArg (· % n) hrow
    exact Fin.ext (by simpa only [hmod] using this)
  · have := congrArg (· % n) h
    exact Fin.ext (by simpa only [position, hmod] using this)

theorem position_swap_lt {j : ℕ} {a b : Fin n} (h : b < a) :
    position n j b a < position n j a b := by
  have ha := a.isLt
  have hrow : (j * n + b + 1) * n ≤ (j * n + a) * n :=
    Nat.mul_le_mul_right n (by rw [Fin.lt_def] at h; omega)
  rw [Nat.succ_mul] at hrow
  rw [position, position]
  omega

theorem position_lt_block {j k : ℕ} (a b : Fin n) (h : j < k) :
    position n j a b < position n k 0 0 := by
  have hrow : (j * n + a + 1) * n ≤ (k * n + 0) * n := by
    apply Nat.mul_le_mul_right
    calc j * n + a + 1 ≤ j * n + n := by have := a.isLt; omega
      _ = (j + 1) * n := (Nat.succ_mul j n).symm
      _ ≤ k * n := Nat.mul_le_mul_right n h
      _ = k * n + 0 := (Nat.add_zero _).symm
  rw [Nat.succ_mul] at hrow
  have := b.isLt
  rw [position, position]
  omega

/-! ## Variables -/

/-- Values of the two families for paths: those of the first one are symmetric, and
right for paths of one edge. -/
structure PathValues (g : Graph n) (X : Fin n → Bool) (P F : ℕ → Fin n → Fin n → Bool) :
    Prop where
  symm : ∀ j a b, a ≠ b → P j a b = P j b a
  edge : ∀ j a b, 1 ≤ j → a ≠ b → g.hasEdge a b = true → P j a b = true
  one : ∀ a b, a ≠ b → g.hasEdge a b = false → P 1 a b = false
  sound : ∀ j a b, F j a b = true → P j a b = true ∧ X b = false

/-- The two families in front of a position. -/
structure PathPartial (g : Graph n) (xVar : Fin n → Lit) (t₀ t : Trace) (K : ℕ)
    (s : (ℕ → Fin n → Fin n → Lit) × (ℕ → Fin n → Fin n → Lit)) : Prop where
  grows : Trace.Grows t₀ t
  valid : ∀ j (a b : Fin n), 1 ≤ j → a ≠ b → position n j a b < K →
    (s.1 j a b).Valid t.numVars ∧ (s.2 j a b).Valid t.numVars
  symm : ∀ j (a b : Fin n), 1 ≤ j → b < a → position n j a b < K → s.1 j a b = s.1 j b a
  edge : ∀ j (a b : Fin n), 1 ≤ j → a < b → position n j a b < K →
    g.hasEdge a b = true → s.1 j a b = .trueLit
  one : ∀ a b : Fin n, a < b → position n 1 a b < K → g.hasEdge a b = false →
    s.1 1 a b = .falseLit
  sound : ∀ σ, t.Models σ → ∀ j (a b : Fin n), 1 ≤ j → a ≠ b → position n j a b < K →
    (s.2 j a b).eval σ = true → (s.1 j a b).eval σ = true ∧ (xVar b).eval σ = false
  extend : ∀ σ, t₀.Models σ → ∀ P F, PathValues g (xValue xVar σ) P F →
    ∃ σ', AgreeBelow t₀.numVars σ σ' ∧ t.Models σ' ∧
      ∀ j (a b : Fin n), 1 ≤ j → a ≠ b → position n j a b < K →
        (s.1 j a b).eval σ' = P j a b ∧ (s.2 j a b).eval σ' = F j a b

theorem set_apply (f : ℕ → Fin n → Fin n → Lit) (j : ℕ) (i ii : Fin n) (l : Lit)
    (k : ℕ) (a b : Fin n) :
    Function.update f j (setEntry (f j) i ii l) k a b =
      if k = j ∧ a = i ∧ b = ii then l else f k a b := by
  by_cases hk : k = j
  · subst hk
    rw [Function.update_self, setEntry_apply]
    simp only [true_and]
  · rw [Function.update_of_ne hk, if_neg fun h => hk h.1]

/-- What `pathLit` returns. -/
structure PathLit (g : Graph n) (t t' : Trace) (clVar : ℕ → Fin n → Fin n → Lit) (j : ℕ)
    (i ii : Fin n) (l : Lit) : Prop where
  grows : Trace.Grows t t'
  valid : l.Valid t'.numVars
  symm : ii < i → l = clVar j ii i
  edge : i < ii → g.hasEdge i ii = true → l = .trueLit
  one : i < ii → j = 1 → g.hasEdge i ii = false → l = .falseLit
  extend : ∀ σ, t.Models σ → ∀ v : Bool, (ii < i → (clVar j ii i).eval σ = v) →
    (i < ii → g.hasEdge i ii = true → v = true) →
    (i < ii → j = 1 → g.hasEdge i ii = false → v = false) →
    ∃ σ', AgreeBelow t.numVars σ σ' ∧ t'.Models σ' ∧ l.eval σ' = v

theorem wp_pathLit {clVar : ℕ → Fin n → Fin n → Lit} {j : ℕ} {i ii : Fin n}
    (ht : t.Scoped) (hne : i ≠ ii) (hcl : ii < i → (clVar j ii i).Valid t.numVars) :
    wp (pathLit g clVar j i ii) (fun l t' => PathLit g t t' clVar j i ii l) E t := by
  have hrefl := Trace.Grows.refl ht
  rw [pathLit]
  by_cases hlt : i < ii
  · have hnot : ¬ii < i := lt_asymm hlt
    rw [if_pos hlt]
    by_cases hadj : g.hasEdge i ii = true
    · rw [if_pos hadj, wp_pure]
      refine ⟨hrefl, trivial, fun h => absurd h hnot, fun _ _ => rfl, fun _ _ h => ?_,
        fun σ hσ v _ hv _ => ⟨σ, AgreeBelow.refl _ σ, hσ, (hv hlt hadj).symm⟩⟩
      rw [hadj] at h
      cases h
    · rw [if_neg hadj]
      by_cases hj : j = 1
      · rw [if_pos hj, wp_pure]
        exact ⟨hrefl, trivial, fun h => absurd h hnot, fun _ h => absurd h hadj,
          fun _ _ _ => rfl, fun σ hσ v _ _ hv => ⟨σ, AgreeBelow.refl _ σ, hσ,
            (hv hlt hj (Bool.not_eq_true _ ▸ hadj)).symm⟩⟩
      · rw [if_neg hj, wp_newVar]
        exact ⟨hrefl.newVar, Nat.lt_succ_self _, fun h => absurd h hnot,
          fun _ h => absurd h hadj, fun _ h => absurd h hj,
          fun σ hσ v _ _ _ => ⟨_, AgreeBelow.update _ _ v, hσ.update ht v,
            Function.update_self _ _ _⟩⟩
  · have hgt : ii < i := lt_of_le_of_ne (not_lt.mp hlt) (Ne.symm hne)
    have hvalid := hcl hgt
    rw [if_neg hlt, wp_bind]
    apply wp_assert_of hvalid.isDef
    rw [wp_pure]
    exact ⟨hrefl, hvalid, fun _ => rfl, fun h => absurd h hlt, fun h => absurd h hlt,
      fun σ hσ v hv _ _ => ⟨σ, AgreeBelow.refl _ σ, hσ, hv hgt⟩⟩

section Vars

variable {xVar : Fin n → Lit}

/-- The step of the loops at one triple. -/
theorem PathPartial.set {t₀ t₁ : Trace} {j : ℕ} {i ii : Fin n} {l : Lit}
    {s : (ℕ → Fin n → Fin n → Lit) × (ℕ → Fin n → Fin n → Lit)} (hne : i ≠ ii)
    (hj : 1 ≤ j) (hx : ∀ v, (xVar v).Valid t₀.numVars)
    (h : PathPartial g xVar t₀ t (position n j i ii) s)
    (hl : PathLit g t t₁ s.1 j i ii l) (ht' : t'.Scoped) (hnum : t'.numVars = t₁.numVars + 1)
    (hmod : ∀ σ, t'.Models σ ↔ t₁.Models σ ∧
      (σ t₁.numVars = true → l.eval σ = true ∧ (xVar ii).eval σ = false)) :
    PathPartial g xVar t₀ t' (position n j i ii + 1)
      (Function.update s.1 j (setEntry (s.1 j) i ii l),
        Function.update s.2 j (setEntry (s.2 j) i ii (.var true t₁.numVars))) := by
  have hcases : ∀ k (a b : Fin n), position n k a b < position n j i ii + 1 →
      (k = j ∧ a = i ∧ b = ii) ∨ ¬(k = j ∧ a = i ∧ b = ii) ∧
        position n k a b < position n j i ii := by
    intro k a b hlt
    by_cases he : k = j ∧ a = i ∧ b = ii
    · exact Or.inl he
    · refine Or.inr ⟨he, ?_⟩
      rcases Nat.lt_succ_iff_lt_or_eq.mp hlt with hlt | heq
      · exact hlt
      · exact absurd (position_inj heq) he
  have hgrow' : Trace.Grows t₁ t' :=
    ⟨hnum ▸ Nat.le_succ _, ht', fun σ hσ => ((hmod σ).mp hσ).1⟩
  have hgrow := hl.grows.trans hgrow'
  refine ⟨h.grows.trans hgrow, fun k a b hk hab hpos => ?_, fun k a b hk hab hpos => ?_,
    fun k a b hk hab hpos hadj => ?_, fun a b hab hpos hadj => ?_,
    fun σ hσ k a b hk hab hpos => ?_, fun σ hσ P F hPF => ?_⟩
  · dsimp only
    rw [set_apply, set_apply]
    rcases hcases k a b hpos with he | ⟨he, hpos⟩
    · rw [if_pos he, if_pos he]
      exact ⟨hgrow'.valid hl.valid, hnum ▸ Nat.lt_succ_self _⟩
    · rw [if_neg he, if_neg he]
      have hv := h.valid k a b hk hab hpos
      exact ⟨hgrow.valid hv.1, hgrow.valid hv.2⟩
  · dsimp only
    rw [set_apply, set_apply]
    have hswap := position_swap_lt (j := k) hab
    have hne' : ¬(k = j ∧ b = i ∧ a = ii) := by
      rintro ⟨rfl, rfl, rfl⟩
      omega
    rw [if_neg hne']
    rcases hcases k a b hpos with he | ⟨he, hpos⟩
    · obtain ⟨rfl, rfl, rfl⟩ := he
      rw [if_pos ⟨rfl, rfl, rfl⟩]
      exact hl.symm hab
    · rw [if_neg he]
      exact h.symm k a b hk hab hpos
  · dsimp only
    rw [set_apply]
    rcases hcases k a b hpos with he | ⟨he, hpos⟩
    · obtain ⟨rfl, rfl, rfl⟩ := he
      rw [if_pos ⟨rfl, rfl, rfl⟩]
      exact hl.edge hab hadj
    · rw [if_neg he]
      exact h.edge k a b hk hab hpos hadj
  · dsimp only
    rw [set_apply]
    rcases hcases 1 a b hpos with he | ⟨he, hpos⟩
    · obtain ⟨hj1, rfl, rfl⟩ := he
      rw [if_pos ⟨hj1, rfl, rfl⟩]
      exact hl.one hab hj1.symm hadj
    · rw [if_neg he]
      exact h.one a b hab hpos hadj
  · dsimp only
    rw [set_apply, set_apply]
    obtain ⟨hσ₁, hF⟩ := (hmod σ).mp hσ
    rcases hcases k a b hpos with he | ⟨he, hpos⟩
    · rw [if_pos he, if_pos he, he.2.2]
      exact hF
    · rw [if_neg he, if_neg he]
      exact h.sound σ (hl.grows.models σ hσ₁) k a b hk hab hpos
  · obtain ⟨σ₁, ha₁, hσ₁, hval₁⟩ := h.extend σ hσ P F hPF
    obtain ⟨σ₂, ha₂, hσ₂, hval₂⟩ := hl.extend σ₁ hσ₁ (P j i ii)
      (fun hgt => by
        rw [hPF.symm j i ii hne]
        exact (hval₁ j ii i hj hne.symm (position_swap_lt hgt)).1)
      (fun _ hadj => hPF.edge j i ii hj hne hadj)
      (fun _ hj1 hadj => hj1 ▸ hPF.one i ii hne hadj)
    have hup := AgreeBelow.update t₁.numVars σ₂ (F j i ii)
    have ha := (ha₁.trans ha₂ h.grows.numVars_le).trans hup
      (h.grows.trans hl.grows).numVars_le
    refine ⟨_, ha, (hmod _).mpr ⟨hσ₂.update hl.grows.wellScoped _, fun hF => ?_⟩,
      fun k a b hk hab hpos => ?_⟩
    · rw [Function.update_self] at hF
      obtain ⟨hP, hX⟩ := hPF.sound j i ii hF
      refine ⟨?_, ?_⟩
      · rw [hup.eval hl.valid, hval₂, hP]
      · rw [ha.eval (hx ii)]
        exact hX
    · dsimp only
      rw [set_apply, set_apply]
      rcases hcases k a b hpos with he | ⟨he, hpos⟩
      · obtain ⟨rfl, rfl, rfl⟩ := he
        rw [if_pos ⟨rfl, rfl, rfl⟩, if_pos ⟨rfl, rfl, rfl⟩, hup.eval hl.valid]
        exact ⟨hval₂, Function.update_self _ _ _⟩
      · rw [if_neg he, if_neg he]
        have hv := h.valid k a b hk hab hpos
        have hlater := ha₂.trans hup hl.grows.numVars_le
        rw [hlater.eval hv.1, hlater.eval hv.2]
        exact hval₁ k a b hk hab hpos

/-- The variables for paths. -/
theorem wp_pathVars (ht : t.Scoped) (hx : ∀ v, (xVar v).Valid t.numVars) :
    wp (pathVars g xVar)
      (fun s t' => PathPartial g xVar t t' (position n (1 + (n - 1)) 0 0) s) E t := by
  apply wp_foldlM_range' (fun m s t' => PathPartial g xVar t t' (position n (1 + m) 0 0) s)
  · have hnone : ∀ j (a b : Fin n), 1 ≤ j → ¬position n j a b < position n (1 + 0) 0 0 := by
      intro j a b hj hlt
      have h1 : (1 * n + 0) * n ≤ (j * n + a) * n :=
        Nat.mul_le_mul_right n (by
          have := Nat.mul_le_mul_right n hj
          omega)
      rw [position, position, Nat.add_zero 1] at hlt
      omega
    exact ⟨Trace.Grows.refl ht, fun j a b hj _ h => absurd h (hnone j a b hj),
      fun j a b hj _ h => absurd h (hnone j a b hj),
      fun j a b hj _ h => absurd h (hnone j a b hj),
      fun a b _ h => absurd h (hnone 1 a b le_rfl),
      fun _ _ j a b hj _ h => absurd h (hnone j a b hj),
      fun σ hσ _ _ _ => ⟨σ, AgreeBelow.refl _ σ, hσ,
        fun j a b hj _ h => absurd h (hnone j a b hj)⟩⟩
  intro m _ s t₁ hI
  have hnext : position n (1 + (m + 1)) 0 0 = position n (1 + m) n 0 :=
    position_block n (1 + m)
  rw [hnext]
  apply wp_foldlM_finRange (fun k s t' => PathPartial g xVar t t' (position n (1 + m) k 0) s)
    hI
  intro i s t₂ hI
  rw [position_row]
  apply wp_foldlM_finRange
    (fun k s t' => PathPartial g xVar t t' (position n (1 + m) i k) s) hI
  intro ii s t₃ hI
  rw [position_succ]
  by_cases hii : i = ii
  · subst hii
    rw [if_pos rfl, wp_pure]
    have hpos : ∀ k (a b : Fin n), a ≠ b → position n k a b < position n (1 + m) i i + 1 →
        position n k a b < position n (1 + m) i i := by
      intro k a b hab hlt
      rcases Nat.lt_succ_iff_lt_or_eq.mp hlt with hlt | heq
      · exact hlt
      · obtain ⟨-, rfl, rfl⟩ := position_inj heq
        exact absurd rfl hab
    refine ⟨hI.grows, fun k a b hk hab h => hI.valid k a b hk hab (hpos k a b hab h),
      fun k a b hk hab h => hI.symm k a b hk hab (hpos k a b hab.ne' h),
      fun k a b hk hab h => hI.edge k a b hk hab (hpos k a b hab.ne h),
      fun a b hab h => hI.one a b hab (hpos 1 a b hab.ne h),
      fun σ hσ k a b hk hab h => hI.sound σ hσ k a b hk hab (hpos k a b hab h),
      fun σ hσ P F hPF => ?_⟩
    obtain ⟨σ', ha, hσ', hval⟩ := hI.extend σ hσ P F hPF
    exact ⟨σ', ha, hσ', fun k a b hk hab h => hval k a b hk hab (hpos k a b hab h)⟩
  · rw [if_neg hii, wp_bind]
    apply wp_imp (wp_pathLit hI.grows.wellScoped hii fun hgt =>
      (hI.valid (1 + m) ii i (Nat.le_add_right 1 m) (Ne.symm hii)
        (position_swap_lt hgt)).1)
    intro l t₄ hl
    have hxv := (hI.grows.trans hl.grows).valid (hx ii)
    have hv : (Lit.var true t₄.numVars).Valid (t₄.numVars + 1) := Nat.lt_succ_self _
    have hlv := hl.valid.mono (Nat.le_succ t₄.numVars)
    have hxv' := hxv.mono (Nat.le_succ t₄.numVars)
    rw [wp_bind, wp_newVar, wp_bind]
    apply wp_addClause (by simp [hlv])
    rw [wp_bind]
    apply wp_addClause (by simp [hxv'])
    rw [wp_pure]
    apply hI.set hii (Nat.le_add_right 1 m) hx hl
    · exact (hl.grows.wellScoped.newVar.addClause (by simp [hlv])).addClause (by simp [hxv'])
    · rfl
    · intro σ
      rw [Trace.models_addClause, Trace.models_addClause, Trace.models_newVar, holds_cons,
        holds_singleton, holds_cons, holds_singleton, hv.eval_neg, hxv'.eval_neg,
        Lit.eval_var_true]
      cases σ t₄.numVars <;> cases l.eval σ <;> cases (xVar ii).eval σ <;> simp

/-! ## Clauses -/

/-- The literals for paths of at most `n - 1` edges. -/
structure PathLits (g : Graph n) (N : ℕ) (clVar fVar : ℕ → Fin n → Fin n → Lit) : Prop where
  cl_valid : ∀ j (a b : Fin n), 1 ≤ j → j ≤ n - 1 → a ≠ b → (clVar j a b).Valid N
  f_valid : ∀ j (a b : Fin n), 1 ≤ j → j ≤ n - 1 → a ≠ b → (fVar j a b).Valid N

variable {clVar fVar : ℕ → Fin n → Fin n → Lit} {N : ℕ}

theorem emits_imp {a b : Lit} (ha : a.Valid N) (hb : b.Valid N) :
    Emits N (addClause [-a, b]) fun σ => a.eval σ = true → b.eval σ = true := by
  refine (Emits.addClause (by simp [ha, hb])).congr fun σ => ?_
  rw [holds_cons, holds_singleton, ha.eval_neg]
  cases a.eval σ <;> simp

theorem emits_pathMonoClauses (h : PathLits g N clVar fVar) :
    Emits N (pathMonoClauses clVar fVar) fun σ =>
      ∀ j, 1 ≤ j → j + 1 < n → ∀ a b : Fin n, a ≠ b →
        (a < b → (clVar j a b).eval σ = true → (clVar (j + 1) a b).eval σ = true) ∧
        ((fVar j a b).eval σ = true → (fVar (j + 1) a b).eval σ = true) := by
  have hloop := Emits.forM (N := N) (l := List.range' 1 (n - 2))
    (f := fun j => forM (List.finRange n) fun i => forM (List.finRange n) fun ii =>
      if i = ii then pure ⟨⟩
      else do
        when (i < ii) (addClause [-clVar j i ii, clVar (j + 1) i ii])
        addClause [-fVar j i ii, fVar (j + 1) i ii])
    fun j hj => Emits.forM fun i _ => Emits.forM fun ii _ =>
      Emits.ite (fun _ => Emits.pure) fun hne => by
        have hj' := List.mem_range'_1.mp hj
        exact (Emits.when fun _ => emits_imp (h.cl_valid j i ii hj'.1 (by omega) hne)
          (h.cl_valid (j + 1) i ii (by omega) (by omega) hne)).bind
          (emits_imp (h.f_valid j i ii hj'.1 (by omega) hne)
            (h.f_valid (j + 1) i ii (by omega) (by omega) hne))
  apply hloop.congr
  intro σ
  constructor
  · intro hall j hj hjn a b hne
    exact (hall j (List.mem_range'_1.mpr (by omega)) a (List.mem_finRange a) b
      (List.mem_finRange b)).2 hne
  · intro hall j hj a _ b _
    have hj' := List.mem_range'_1.mp hj
    exact ⟨fun _ => trivial, fun hne => hall j hj'.1 (by omega) a b hne⟩

theorem emits_pathStepClauses (h : PathLits g N clVar fVar) :
    Emits N (pathStepClauses g clVar fVar) fun σ =>
      ∀ j, 2 ≤ j → j < n → ∀ a b : Fin n, a ≠ b → g.hasEdge a b = false →
        (clVar j a b).eval σ = true →
        ∃ c ∈ g.adjList b, c ≠ a ∧ (fVar (j - 1) a c).eval σ = true := by
  have hclause : ∀ j, 2 ≤ j → j < n → ∀ a b : Fin n, a ≠ b →
      Emits N (addClause (-clVar j a b ::
        ((g.adjList b).filter fun c => decide (c ≠ a)).map fun c => fVar (j - 1) a c))
      fun σ => (clVar j a b).eval σ = true →
        ∃ c ∈ g.adjList b, c ≠ a ∧ (fVar (j - 1) a c).eval σ = true := by
    intro j hj hjn a b hne
    have hcl := h.cl_valid j a b (by omega) (by omega) hne
    refine (Emits.addClause ?_).congr fun σ => ?_
    · intro l hl
      rcases List.mem_cons.mp hl with rfl | hl
      · exact Lit.valid_neg.mpr hcl
      · obtain ⟨c, hc, rfl⟩ := List.mem_map.mp hl
        have hca := of_decide_eq_true (List.mem_filter.mp hc).2
        exact h.f_valid (j - 1) a c (by omega) (by omega) (Ne.symm hca)
    · rw [holds_cons, hcl.eval_neg, Bool.not_eq_true']
      constructor
      · intro hor hcl'
        rcases hor with hor | ⟨l, hl, htrue⟩
        · rw [hcl'] at hor
          cases hor
        · obtain ⟨c, hc, rfl⟩ := List.mem_map.mp hl
          obtain ⟨hcb, hca⟩ := List.mem_filter.mp hc
          exact ⟨c, hcb, of_decide_eq_true hca, htrue⟩
      · intro himp
        by_cases hcl' : (clVar j a b).eval σ = true
        · obtain ⟨c, hcb, hca, htrue⟩ := himp hcl'
          exact Or.inr ⟨_, List.mem_map.mpr ⟨c, List.mem_filter.mpr
            ⟨hcb, decide_eq_true hca⟩, rfl⟩, htrue⟩
        · exact Or.inl (Bool.eq_false_iff.mpr hcl')
  have hloop := Emits.forM (N := N) (l := List.range' 2 (n - 2))
    (f := fun j => forM (List.finRange n) fun i => forM (List.finRange n) fun ii =>
      if i = ii then pure ⟨⟩
      else if g.hasEdge i ii then pure ⟨⟩
      else addClause (-clVar j i ii ::
        ((g.adjList ii).filter fun iii => decide (iii ≠ i)).map fun iii =>
          fVar (j - 1) i iii))
    fun j hj => Emits.forM fun i _ => Emits.forM fun ii _ =>
      Emits.ite (fun _ => Emits.pure) fun hne => Emits.ite (fun _ => Emits.pure) fun _ => by
        have hj' := List.mem_range'_1.mp hj
        exact hclause j hj'.1 (by omega) i ii hne
  apply hloop.congr
  intro σ
  constructor
  · intro hall j hj hjn a b hne hadj
    refine ((hall j (List.mem_range'_1.mpr (by omega)) a (List.mem_finRange a) b
      (List.mem_finRange b)).2 hne).2 ?_
    rw [hadj]
    exact Bool.false_ne_true
  · intro hall j hj a _ b _
    have hj' := List.mem_range'_1.mp hj
    exact ⟨fun _ => trivial, fun hne => ⟨fun _ => trivial, fun hadj =>
      hall j hj'.1 (by omega) a b hne (Bool.eq_false_iff.mpr hadj)⟩⟩

theorem emits_pathFinalClauses {cVar : Fin n → Fin n → Lit} (h : PathLits g N clVar fVar)
    (hc : ∀ a b, a ≠ b → (cVar a b).Valid N) :
    Emits N (pathFinalClauses cVar clVar) fun σ => ∀ a b : Fin n, a < b →
      (cVar a b).eval σ = true → (clVar (n - 1) a b).eval σ = true := by
  have hloop := Emits.forM (N := N) (l := List.finRange n)
    (f := fun i => forM ((List.finRange n).filter fun ii => decide (i < ii)) fun ii =>
      addClause [-cVar i ii, clVar (n - 1) i ii])
    fun i _ => Emits.forM fun ii hii => by
      have hlt : i < ii := of_decide_eq_true (List.mem_filter.mp hii).2
      have hn : 1 ≤ n - 1 := by
        have := ii.isLt
        rw [Fin.lt_def] at hlt
        omega
      exact emits_imp (hc i ii hlt.ne) (h.cl_valid (n - 1) i ii hn le_rfl hlt.ne)
  exact hloop.congr fun σ => by simp

/-! ## The whole encoding -/

/-- The intended values: short paths past the solution. -/
theorem pathValues (hg : g.Valid) (X : Fin n → Bool) (P F : ℕ → Fin n → Fin n → Bool)
    (hP : ∀ j a b, P j a b = true ↔ g.toSimple.ShortPath (solutionSet X) a j b)
    (hF : ∀ j a b, F j a b = (P j a b && !X b)) : PathValues g X P F := by
  refine ⟨fun j a b _ => ?_, fun j a b hj hne hadj => ?_, fun a b hne hadj => ?_,
    fun j a b h => ?_⟩
  · rw [Bool.eq_iff_iff, hP, hP]
    exact ⟨ShortPath.symm, ShortPath.symm⟩
  · obtain ⟨j, rfl⟩ := Nat.exists_eq_add_of_le' hj
    exact (hP _ a b).mpr (ShortPath.of_adj (hg.adj_iff.mpr hadj))
  · rw [Bool.eq_false_iff, Ne, hP]
    rintro (h | ⟨w, _, h, _⟩)
    · have hmat : g.hasEdge a b = true := hg.adj_iff.mp h
      rw [hadj] at hmat
      cases hmat
    · cases h
  · rw [hF, Bool.and_eq_true, Bool.not_eq_true'] at h
    exact h

/-- The models of the path length encoding have right connectivity values, and every
model with right values extends. -/
theorem wp_buildPathLengthEncoding {cVar : Fin n → Fin n → Lit} (hg : g.Valid)
    (ht : t.Scoped) (hl : BasicLits g t xVar cVar) :
    wp (buildPathLengthEncoding g xVar cVar)
      (fun _ t' => Trace.Grows t t' ∧
        (∀ σ, t'.Models σ → Sound g (solutionSet (xValue xVar σ)) (cValue cVar σ)) ∧
        ∀ σ, t.Models σ → Sound g (solutionSet (xValue xVar σ)) (cValue cVar σ) →
          ∃ σ', AgreeBelow t.numVars σ σ' ∧ t'.Models σ') E t := by
  rw [buildPathLengthEncoding, wp_bind]
  apply wp_imp (wp_pathVars ht hl.x_valid)
  intro s t₁ h₁
  have hbelow : ∀ j (a b : Fin n), j ≤ n - 1 → position n j a b <
      position n (1 + (n - 1)) 0 0 := fun j a b hj =>
    position_lt_block a b (by omega)
  have hlits₁ : PathLits g t₁.numVars s.1 s.2 :=
    ⟨fun j a b hj hjn hne => (h₁.valid j a b hj hne (hbelow j a b hjn)).1,
      fun j a b hj hjn hne => (h₁.valid j a b hj hne (hbelow j a b hjn)).2⟩
  rw [wp_bind]
  apply (emits_pathMonoClauses hlits₁).wp h₁.grows.wellScoped le_rfl
  intro t₂ hnum₂ ht₂ hmod₂
  rw [wp_bind]
  apply (emits_pathStepClauses hlits₁).wp ht₂ hnum₂.ge
  intro t₃ hnum₃ ht₃ hmod₃
  have hnum₁₃ := hnum₃.trans hnum₂
  apply (emits_pathFinalClauses hlits₁ fun a b hne =>
    (hl.c_valid a b hne).mono h₁.grows.numVars_le).wp ht₃ hnum₁₃.ge
  intro t₄ hnum₄ ht₄ hmod₄
  have hg₄ : Trace.Grows t₁ t₄ := ⟨(hnum₄.trans hnum₁₃).ge, ht₄, fun σ hσ =>
    ((hmod₂ σ).mp ((hmod₃ σ).mp ((hmod₄ σ).mp hσ).1).1).1⟩
  refine ⟨h₁.grows.trans hg₄, fun σ hσ => ?_, fun σ hσ hsound => ?_⟩
  · -- A true literal stands for a path, by induction on the length.
    obtain ⟨hσ₃, hfinal⟩ := (hmod₄ σ).mp hσ
    obtain ⟨hσ₂, hstep⟩ := (hmod₃ σ).mp hσ₃
    obtain ⟨hσ₁, -⟩ := (hmod₂ σ).mp hσ₂
    have hpath : ∀ j, j + 1 ≤ n - 1 → ∀ a b : Fin n, a ≠ b →
        (s.1 (j + 1) a b).eval σ = true →
        g.toSimple.ShortPath (solutionSet (xValue xVar σ)) a (j + 1) b := by
      intro j
      induction j with
      | zero =>
          intro hj a b hne htrue
          by_cases hadj : g.hasEdge a b = true
          · exact ShortPath.of_adj (hg.adj_iff.mpr hadj)
          · have hadj' := Bool.eq_false_iff.mpr hadj
            rcases lt_or_gt_of_ne hne with hlt | hlt
            · rw [h₁.one a b hlt (hbelow 1 a b hj) hadj'] at htrue
              cases htrue
            · have hadj'' : g.hasEdge b a = false := (hg.symm b a).trans hadj'
              rw [h₁.symm 1 a b le_rfl hlt (hbelow 1 a b hj),
                h₁.one b a hlt (hbelow 1 b a hj) hadj''] at htrue
              cases htrue
      | succ j ih =>
          intro hj a b hne htrue
          by_cases hadj : g.hasEdge a b = true
          · exact ShortPath.of_adj (hg.adj_iff.mpr hadj)
          · obtain ⟨c, hcb, hca, hf⟩ := hstep (j + 1 + 1) (by omega) (by omega) a b hne
              (Bool.eq_false_iff.mpr hadj) htrue
            rw [Nat.add_sub_cancel] at hf
            obtain ⟨hcl, hxc⟩ := h₁.sound σ hσ₁ (j + 1) a c (by omega) hca.symm
              (hbelow _ a c (by omega)) hf
            refine Or.inr ⟨c, fun hmem => ?_, ih (by omega) a c hca.symm hcl,
              (hg.mem_adjList_iff.mp hcb).symm⟩
            rw [solutionSet, Set.mem_ofPred_eq, xValue, hxc] at hmem
            cases hmem
    intro a b hne hc
    have hn : n - 1 = n - 2 + 1 := by
      have ha := a.isLt
      have hb := b.isLt
      have := Fin.val_ne_of_ne hne
      omega
    rcases lt_or_gt_of_ne hne with hlt | hlt
    · have hcl := hfinal a b hlt hc
      rw [hn] at hcl
      exact (hpath (n - 2) (by omega) a b hne hcl).linked hne
    · have hc' : (cVar b a).eval σ = true := by
        rw [← hl.c_symm a b hne]
        exact hc
      have hcl := hfinal b a hlt hc'
      rw [hn] at hcl
      exact ((hpath (n - 2) (by omega) b a hne.symm hcl).linked hne.symm).symm
  · classical
    set X := xValue xVar σ
    set P : ℕ → Fin n → Fin n → Bool := fun j a b =>
      decide (g.toSimple.ShortPath (solutionSet X) a j b) with hPdef
    have hP : ∀ j a b, P j a b = true ↔
        g.toSimple.ShortPath (solutionSet X) a j b := fun j a b => decide_eq_true_iff
    obtain ⟨σ', ha, hσ', hval⟩ := h₁.extend σ hσ P (fun j a b => P j a b && !X b)
      (pathValues hg X P _ hP fun _ _ _ => rfl)
    have hval' := fun j a b h1 h2 hne => hval j a b h1 hne (hbelow j a b h2)
    refine ⟨σ', ha, (hmod₄ σ').mpr ⟨(hmod₃ σ').mpr ⟨(hmod₂ σ').mpr ⟨hσ', ?_⟩, ?_⟩, ?_⟩⟩
    · intro j hj hjn a b hne
      have h1 := hval' j a b hj (by omega) hne
      have h2 := hval' (j + 1) a b (by omega) (by omega) hne
      have hmono : P j a b = true → P (j + 1) a b = true := fun h =>
        (hP _ a b).mpr ((hP _ a b).mp h).succ
      rw [h1.1, h1.2, h2.1, h2.2, Bool.and_eq_true, Bool.and_eq_true]
      exact ⟨fun _ => hmono, fun h => ⟨hmono h.1, h.2⟩⟩
    · intro j hj hjn a b hne hadj htrue
      rw [(hval' j a b (by omega) (by omega) hne).1, hP] at htrue
      obtain ⟨j, rfl⟩ : ∃ i, j = i + 1 := ⟨j - 1, by omega⟩
      rcases htrue with hab | ⟨c, hc, hac, hcb⟩
      · have hmat : g.hasEdge a b = true := hg.adj_iff.mp hab
        rw [hadj] at hmat
        cases hmat
      · have hca : c ≠ a := by
          rintro rfl
          have hmat : g.hasEdge c b = true := hg.adj_iff.mp hcb
          rw [hadj] at hmat
          cases hmat
        refine ⟨c, hg.mem_adjList_iff.mpr hcb.symm, hca, ?_⟩
        rw [Nat.add_sub_cancel, (hval' j a c (by omega) (by omega) hca.symm).2,
          Bool.and_eq_true, hP]
        exact ⟨hac, by rw [Bool.not_eq_true']; exact Bool.eq_false_iff.mpr hc⟩
    · intro a b hlt hc
      have hn : 1 ≤ n - 1 := by
        have := b.isLt
        rw [Fin.lt_def] at hlt
        omega
      rw [(hval' (n - 1) a b hn le_rfl hlt.ne).1, hP]
      rw [ha.eval (hl.c_valid a b hlt.ne)] at hc
      have hpath := (hsound a b hlt.ne hc).shortPath hlt.ne
      rwa [Nat.card_eq_fintype_card, Fintype.card_fin] at hpath

end Vars

end Enumerator

end Triangulator
