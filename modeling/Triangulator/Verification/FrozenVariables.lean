import Triangulator.Verification.FrozenRefinement
import Triangulator.Verification.FrozenTotalizer

/-!
# The variables after the constructors

The selection variables and the outputs of the cardinality constraint are frozen before the
first `Solve` call.  The connectivity variables of vertices that are not adjacent and the
variables of the hyperedges are not: a literal that takes both values over the same values of
the older variables is a variable that was created since.
-/

namespace Triangulator

open AbortM SimpleGraph

namespace Trace

variable {t t' : Trace}

theorem Adds.unsolved (h : Adds t t') (ht : t.Unsolved) : t'.Unsolved := by
  obtain ⟨calls, rfl, hcalls⟩ := h.calls
  exact List.forall_mem_append.mpr ⟨hcalls, ht⟩

/-- Only created variables are frozen. -/
def FrozenScoped (t : Trace) : Prop :=
  ∀ v, t.frozen v = true → v < t.numVars

theorem Adds.frozenScoped (h : Adds t t') (ht : t.FrozenScoped) : t'.FrozenScoped :=
  fun v hv => (h.frozen_or v hv).elim (fun hv => (ht v hv).trans_le h.numVars_le) id

theorem frozenScoped_nil : FrozenScoped [] := fun v hv => by
  cases hv

theorem frozen_quiet {calls : Trace} (h : ∀ call ∈ calls, call.Quiet) (v : ℕ) :
    (calls ++ t).frozen v = t.frozen v := by
  induction calls with
  | nil => rfl
  | cons call calls ih =>
      have ih := ih fun c hc => h c (List.mem_cons_of_mem _ hc)
      cases call with
      | newVar => exact ih
      | addClause clause => exact ih
      | freezeVar l => exact (h _ List.mem_cons_self).elim
      | solve as b answer => exact (h _ List.mem_cons_self).elim

end Trace

/-- What the quiet calls do. -/
structure Trace.AddsQuietly (t t' : Trace) : Prop extends Trace.Adds t t' where
  frozen_all : ∀ v, t'.frozen v = t.frozen v

theorem wp_addsQuietly {α : Type} {m : SatM α} {t : Trace} (h : Builds Event.Quiet m) :
    wp m (fun _ t' => t.AddsQuietly t') (fun _ => True) t :=
  wp_mono (h.logs.wp (R := fun t' => t.AddsQuietly t') fun _ hcalls =>
    ⟨Trace.Adds.of_quiet t hcalls, Trace.frozen_quiet hcalls⟩) (fun _ _ h => h)
    fun _ _ => trivial

/-- A literal with two values over the same older variables is exposed. -/
theorem Trace.AddsQuietly.exposed {t t' : Trace} {l : Lit} {σ σ' : ℕ → Bool}
    (h : t.AddsQuietly t') (ht : t.FrozenScoped) (hl : l.Valid t'.numVars)
    (hagree : AgreeBelow t.numVars σ σ') (hne : l.eval σ ≠ l.eval σ') : l.Exposed t' := by
  cases l with
  | undef => exact absurd rfl hne
  | const b => exact absurd rfl hne
  | var b v =>
      refine Or.inr ⟨hl, ?_⟩
      rw [h.frozen_all, Bool.eq_false_iff]
      intro hfrozen
      exact hne (hagree.eval (show (Lit.var b v).Valid t.numVars from ht v hfrozen)).symm

namespace Enumerator

variable {n : ℕ} {g : Graph n} {e : Enumerator n} {t t' : Trace}

/-! ## The selection variables -/

/-- The selection variables are the first ones, and they are frozen. -/
theorem wp_selectionVars_frozen :
    wp (selectionVars n) (fun xVar t => Trace.Adds [] t ∧
      ∀ i, xVar i = .var true i ∧ t.frozen i = true) (fun _ => True) [] := by
  have hloop := wp_foldlM_finRange (n := n) (E := fun _ => True)
    (f := fun xVar i => do
      let v ← newVar
      freezeVar v
      pure (Function.update xVar i v))
    (b := fun _ => Lit.undef) (s := [])
    (fun k xVar t => Trace.Adds [] t ∧ t.numVars = k ∧
      ∀ i : Fin n, i.val < k → xVar i = .var true i ∧ t.frozen i = true)
    ⟨Trace.Adds.refl [], rfl, fun _ hi => absurd hi (Nat.not_lt_zero _)⟩ ?_
  · apply wp_imp hloop
    rintro xVar t ⟨hadds, -, hall⟩
    exact ⟨hadds, fun i => hall i i.isLt⟩
  rintro k xVar t ⟨hadds, hnum, hall⟩
  rw [wp_bind, wp_newVar, wp_bind]
  apply wp_freezeVar (Nat.lt_succ_self _)
  rw [wp_pure]
  have hadds' := hadds.newVar.freezeVar (b := true) (Nat.zero_le _) (Nat.lt_succ_self t.numVars)
  refine ⟨hadds', congrArg (· + 1) hnum, fun i hi => ?_⟩
  by_cases hik : i = k
  · subst hik
    rw [Function.update_self, hnum]
    exact ⟨rfl, Trace.frozen_iff.mpr ⟨true, List.mem_cons_self⟩⟩
  · rw [Function.update_of_ne hik]
    have hlt : i.val < k.val := by
      have := Fin.val_ne_of_ne hik
      omega
    obtain ⟨hi, hfrozen⟩ := hall i hlt
    exact ⟨hi, Trace.frozen_append [_, _] hfrozen⟩

/-! ## The connectivity variables -/

/-- The variable of a pair that is not adjacent takes both values. -/
theorem CPartial.exposed {cVar : Fin n → Fin n → Lit} (hg : g.Valid)
    (h : CPartial g t t' n 0 cVar) (hquiet : t.AddsQuietly t') (ht : t.FrozenScoped)
    (hmodel : ∃ σ, t.Models σ) {i ii : Fin n} (hne : i ≠ ii)
    (hadj : g.hasEdge i ii = false) : (cVar i ii).Exposed t' := by
  obtain ⟨σ, hσ⟩ := hmodel
  have hpos : i.val < n ∨ i.val = n ∧ ii.val < 0 := Or.inl i.isLt
  obtain ⟨σ₁, ha₁, -, hval₁⟩ := h.extend (fun _ _ => true) (fun _ _ _ => rfl)
    (fun _ _ _ _ => rfl) σ hσ
  obtain ⟨σ₂, ha₂, -, hval₂⟩ := h.extend g.hasEdge (fun a b _ => hg.symm a b)
    (fun _ _ _ h => h) σ hσ
  apply hquiet.exposed ht (h.valid i ii hne hpos) (ha₁.symm.trans ha₂ le_rfl)
  rw [hval₁ i ii hne hpos, hval₂ i ii hne hpos, hadj]
  exact fun h => Bool.noConfusion h

/-- The variables of an enumerator before the first `Solve` call. -/
structure Fresh (e : Enumerator n) (t : Trace) : Prop where
  unsolved : t.Unsolved
  frozenScoped : t.FrozenScoped
  x_eq : ∀ i, e.xVar i = .var true i
  x_frozen : ∀ i : Fin n, t.frozen i = true
  c_exposed : ∀ i ii, i ≠ ii → e.graph.hasEdge i ii = false → (e.cVar i ii).Exposed t

theorem Fresh.adds (h : Fresh e t) (ht : t.Adds t') : Fresh e t' where
  unsolved := ht.unsolved h.unsolved
  frozenScoped := ht.frozenScoped h.frozenScoped
  x_eq := h.x_eq
  x_frozen i := ht.frozen_mono i (h.x_frozen i)
  c_exposed i ii hne hadj := (h.c_exposed i ii hne hadj).adds ht

theorem Fresh.x_kept (h : Fresh e t) (i : Fin n) : (e.xVar i).Kept t := by
  rw [h.x_eq]
  exact ⟨h.x_frozen i, h.unsolved.eliminable i⟩

/-- The constructor freezes the selection variables only. -/
theorem wp_new_fresh (hg : g.Valid) (minsepEncoding : ℕ) :
    wp (new g minsepEncoding) (fun e t => Fresh e t) (fun _ => True) [] := by
  rw [new, wp_bind, buildBasicEncoding, wp_bind]
  apply wp_imp (wp_and wp_selectionVars wp_selectionVars_frozen)
  rintro xVar t ⟨⟨ht, -, hmodel⟩, hadds, hx⟩
  have hscoped := hadds.frozenScoped Trace.frozenScoped_nil
  obtain ⟨σ, hσ, -⟩ := hmodel fun _ => true
  rw [wp_bind]
  apply wp_imp (wp_and (wp_connectivityVars ht) (wp_addsQuietly builds_connectivityVars))
  rintro cVar t₁ ⟨hc, hquiet⟩
  have hfresh : ∀ {t' : Trace}, t₁.Adds t' → Fresh ⟨xVar, cVar, [], g, minsepEncoding, []⟩ t' :=
    fun ht' => Fresh.adds
      ⟨hquiet.unsolved (hadds.unsolved fun _ hcall => absurd hcall List.not_mem_nil),
        hquiet.frozenScoped hscoped, fun i => (hx i).1,
        fun i => hquiet.frozen_mono i (hx i).2,
        fun i ii hne hadj => hc.exposed hg hquiet hscoped ⟨σ, hσ⟩ hne hadj⟩ ht'
  rw [wp_bind]
  apply wp_imp (wp_addsQuietly builds_connectivityClauses)
  intro _ t₂ h₂
  rw [wp_bind]
  apply wp_imp (wp_addsQuietly builds_cliqueClauses)
  intro _ t₃ h₃
  rw [wp_bind]
  apply wp_imp (wp_addsQuietly builds_fullComponentClauses)
  intro _ t₄ h₄
  rw [wp_pure, wp_bind]
  apply wp_imp (wp_addsQuietly builds_buildPathLengthEncoding.when)
  intro _ t₅ h₅
  rw [wp_pure]
  exact hfresh (((h₂.toAdds.trans h₃.toAdds).trans h₄.toAdds).trans h₅.toAdds)

end Enumerator

/-! ## The outputs of the cardinality constraint -/

namespace TotalizerBuilder

variable {t : Trace} {tb : TotalizerBuilder} {out : List Lit}

/-- Before anything is built only the outputs are there. -/
theorem Inv.kept_of_start (h : Inv tb t out) (hcur : tb.curSize = -1)
    (hout : ∀ y ∈ out, y.Kept t) : Kept tb t := by
  have h2 := h.two_le
  have hnodes := h.nodes
  rw [hcur] at hnodes
  apply hnodes.imp (Nat.zero_le _) (by omega : tb.input.length - 1 < tb.input.length)
  intro i l r _ _ _ hn hne y hy
  by_cases hi : i = 1
  · rw [hi, h.root] at hy
    rcases List.mem_cons.mp hy with rfl | hy
    · trivial
    · exact hout y hy
  · have hlen := hn.length_eq hne
    rw [if_neg hi, show ((-1 : ℤ) + 1).toNat = 0 from rfl, Nat.zero_min] at hlen
    rw [List.length_eq_zero_iff.mp hlen] at hy
    cases hy

end TotalizerBuilder

namespace SizedEnumerator

variable {n : ℕ} {t : Trace}

/-- The new literals are frozen. -/
theorem wp_freezeVars_kept {t₁ : Trace} {ls : List Lit} (h : t.Adds t₁) (ht : t.Unsolved)
    (habove : ∀ l ∈ ls, l.Above t.numVars) (hknown : ∀ l ∈ ls, l.Known t₁.numVars) :
    wp (forM ls freezeVar) (fun _ t' => t.Adds t' ∧ ∀ l ∈ ls, l.Kept t') (fun _ => True) t₁ := by
  have hloop := wp_forM (E := fun _ => True) (f := freezeVar) (l := ls) (s := t₁)
    (fun pre t' => t.Adds t' ∧ t'.numVars = t₁.numVars ∧ ∀ l ∈ pre, l.Kept t')
    ⟨h, rfl, by simp⟩ ?_
  · exact wp_imp hloop fun _ _ h => ⟨h.1, h.2.2⟩
  rintro pre l post t₂ hl ⟨hadds, hnum, hkept⟩
  have hmem : l ∈ ls := by simp [hl]
  have hk := hknown l hmem
  have ha := habove l hmem
  cases l with
  | undef => cases hk
  | const b => cases hk
  | var b v =>
      have hv : v < t₂.numVars := by
        rw [hnum]
        exact hk
      apply wp_freezeVar hv
      have hadds' := hadds.freezeVar (b := b) ha hv
      refine ⟨hadds', hnum, List.forall_mem_append.mpr ⟨fun y hy => ?_, fun y hy => ?_⟩⟩
      · exact (hkept y hy).cons _
      · obtain rfl := List.mem_singleton.mp hy
        exact ⟨Trace.frozen_iff.mpr ⟨b, List.mem_cons_self⟩,
          (hadds'.unsolved ht).eliminable v⟩

/-- A totalizer starts without a size. -/
theorem wp_cardinalityOutputs_start {cardEncoding : ℕ} {input : List Lit} (ht : t.Scoped)
    (h2 : 2 ≤ input.length) (hinput : ∀ l ∈ input, l.Known t.numVars) :
    wp (cardinalityOutputs cardEncoding input)
      (fun r _ => cardEncoding = 1 → r.2.curSize = -1) (fun _ => True) t := by
  rw [cardinalityOutputs]
  apply wp_ite
  · intro h0
    exact wp_of_forall (fun _ _ h1 => by omega) fun _ => trivial
  intro _
  apply wp_ite
  · intro _
    apply wp_imp (TotalizerBuilder.wp_init ht h2 fun l hl => (hinput l hl).valid)
    exact fun _ _ h _ => h.2.1
  · exact fun _ => trivial

/-- The cardinality constraint freezes its outputs. -/
theorem wp_withCardinality_fresh {cardEncoding : ℕ} {input : List Lit} {e : Enumerator n}
    (ht : t.Scoped) (hun : t.Unsolved) (hle : cardEncoding ≤ 1) (h2 : 2 ≤ input.length)
    (hinput : ∀ l ∈ input, l.Known t.numVars) :
    wp (withCardinality e cardEncoding input input.length)
      (fun se t' => se.toEnumerator = e ∧ se.cardEncoding = cardEncoding ∧ t.Adds t' ∧
        Trace.Grows t t' ∧ CardInv se input t' 0 ∧
        (∀ l ∈ se.cardinalityNetwork, l.Kept t') ∧
        (cardEncoding = 1 → se.tb.Kept t')) (fun _ => True) t := by
  rw [withCardinality, wp_bind]
  apply wp_imp (wp_and (wp_cardinalityOutputs e ht hle h2 hinput)
    (wp_and (wp_cardinalityOutputs_start ht h2 hinput)
      (wp_and (wp_cardinalityOutputs_above h2) (wp_addsQuietly builds_cardinalityOutputs))))
  rintro r t₁ ⟨⟨hgrow, hcard, -⟩, hstart, habove, hquiet⟩
  rw [wp_bind]
  apply wp_assert_any
  rw [wp_bind]
  have hfreeze := (emits_freezeVars hcard.known).wp hgrow.wellScoped le_rfl
    (E := fun _ => True) (Q := fun _ t' => Trace.Grows t₁ t')
    fun t₂ hnum ht₂ hmod => ⟨hnum.ge, ht₂, fun σ hσ => ((hmod σ).mp hσ).1⟩
  apply wp_imp (wp_and hfreeze (wp_freezeVars_kept hquiet.toAdds hun habove hcard.known))
  rintro _ t₂ ⟨hgrow₂, hadds, hkept⟩
  rw [wp_pure]
  have hcard₂ := hcard.grows hgrow₂
  refine ⟨rfl, rfl, hadds, hgrow.trans hgrow₂, hcard₂, hkept, fun h1 => ?_⟩
  exact (hcard₂.totalizer h1).1.kept_of_start (hstart h1) hkept

end SizedEnumerator

end Triangulator
