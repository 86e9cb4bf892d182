import Triangulator.Verification.FrozenVariables

/-!
# The freeze discipline of a run

A run keeps the discipline as long as every answer of the solver is a potential maximal
clique; the first other answer breaks it for good.  A totalizer over the variables of the
hyperedges breaks it in the second call of `AllPmcs`, unless the hyperedges are a power of
two in number.
-/

namespace Triangulator

open AbortM SimpleGraph

/-- The true selection variables of every answer are a potential maximal clique. -/
def AnswersPmc {n : ℕ} (g : Graph n) (t : Trace) : Prop :=
  ∀ as b σ, Event.solve as b (some σ) ∈ t →
    g.toSimple.IsPotentialMaximalClique {v : Fin n | σ v = true}

namespace Enumerator

variable {n : ℕ} {g : Graph n} {e : Enumerator n} {t t' : Trace} {solver : Solver}
  {sh : Shuffle} {as : List Lit} {firstCall : Bool}

/-! ## The search -/

theorem logs_getPmc {fuel : ℕ} :
    Logs (fun _ => True) (getPmc solver sh as firstCall fuel e) :=
  Uses.logs (uses_getPmc (b := true) e.canRead_all (fun _ _ => trivial) fun _ => trivial) solver

/-- The clause that excludes the solution is about the selection variables. -/
theorem wp_readSolution_kept (hx : ∀ i, (e.xVar i).Kept t) :
    wp e.readSolution (fun r _ => ∀ l ∈ r.1, l.Kept t) (fun _ => True) t := by
  apply wp_foldlM (fun _ (s : List Lit × List (Fin n)) _ => ∀ l ∈ s.1, l.Kept t)
    (fun l hl => absurd hl List.not_mem_nil)
  rintro pre i post s t₁ - hs
  rw [wp_bind]
  apply wp_of_forall _ fun _ => trivial
  intro b t₂
  apply wp_ite
  · intro _
    exact List.forall_mem_append.mpr ⟨hs, by simpa using hx i⟩
  · intro _
    exact List.forall_mem_append.mpr ⟨hs, by simpa using hx i⟩

/-- No answer was refuted so far, and every clause of the search can be added. -/
structure Guarded (e : Enumerator n) (t : Trace) : Prop where
  inv : Inv e t
  x_eq : ∀ i, e.xVar i = .var true i
  x_kept : ∀ i, (e.xVar i).Kept t
  c_exposed : ∀ i ii, i ≠ ii → e.graph.hasEdge i ii = false → (e.cVar i ii).Exposed t
  disciplined : t.disciplined = true
  answers : AnswersPmc e.graph t

/-- An answer was refuted, which broke the discipline. -/
structure Broken (g : Graph n) (t : Trace) : Prop where
  disciplined : t.disciplined = false
  answers : ¬AnswersPmc g t

/-- What holds of every prefix of a run. -/
def Balanced (g : Graph n) (t : Trace) : Prop :=
  t.disciplined = true ↔ AnswersPmc g t

theorem Guarded.balanced (h : Guarded e t) : Balanced e.graph t :=
  iff_of_true h.disciplined h.answers

theorem Broken.balanced (h : Broken g t) : Balanced g t :=
  iff_of_false (Bool.eq_false_iff.mp h.disciplined) h.answers

theorem Broken.append (h : Broken g t) (calls : Trace) : Broken g (calls ++ t) :=
  ⟨Trace.not_disciplined_append h.disciplined calls, fun hall =>
    h.answers fun as b σ hmem => hall as b σ (List.mem_append_right _ hmem)⟩

/-- A broken run stays broken. -/
theorem wp_broken {α : Type} {m : SatM α} {P : Event → Prop} (hm : Logs P m)
    (h : Broken g t) : wp m (fun _ t' => Broken g t') (Balanced g) t :=
  wp_mono (hm.wp fun calls _ => h.append calls) (fun _ _ h => h) fun _ h => h.balanced

/-- The solution in an answer. -/
theorem Guarded.vset_solutionOf (h : Guarded e t) (σ : ℕ → Bool) :
    vset (e.solutionOf σ) = {v : Fin n | σ v = true} := by
  ext v
  rw [Enumerator.vset_solutionOf]
  change xValue e.xVar σ v = true ↔ σ v = true
  rw [xValue, h.x_eq v, Lit.eval_var_true]

/-- A solve call without an answer or with one that is not refuted. -/
theorem Guarded.solve (h : Guarded e t) (answer : Option (ℕ → Bool))
    (hanswer : ∀ σ, answer = some σ →
      e.graph.toSimple.IsPotentialMaximalClique {v : Fin n | σ v = true}) :
    Guarded e (.solve as firstCall answer :: t) where
  inv := (Step.solve h.inv as firstCall answer).inv
  x_eq := h.x_eq
  x_kept i := (h.x_kept i).cons _
  c_exposed i ii hne hadj := (h.c_exposed i ii hne hadj).cons trivial
  disciplined := h.disciplined
  answers as' b σ hmem := by
    rcases List.mem_cons.mp hmem with heq | hmem
    · obtain ⟨-, -, rfl⟩ := Event.solve.inj heq
      exact hanswer σ rfl
    · exact h.answers as' b σ hmem

/-- The clause that excludes a solution. -/
theorem Guarded.addClause (h : Guarded e t) {clause : List Lit}
    (hvalid : ∀ l ∈ clause, l.Valid t.numVars) (hkept : ∀ l ∈ clause, l.Kept t) :
    Guarded e (.addClause clause :: t) where
  inv := h.inv.grows ((Trace.Grows.refl h.inv.wellScoped).addClause hvalid)
  x_eq := h.x_eq
  x_kept i := (h.x_kept i).cons _
  c_exposed i ii hne hadj := (h.c_exposed i ii hne hadj).cons trivial
  disciplined := Trace.disciplined_addClause h.disciplined fun l hl => (hkept l hl).usable
  answers as b σ hmem := h.answers as b σ ((List.mem_cons.mp hmem).resolve_left
    fun heq => Event.noConfusion heq)

/-- Creating variables and adding clauses that can be added. -/
theorem Guarded.adds (h : Guarded e t) (hadds : t.Adds t')
    (hgrow : Trace.Grows t t') (hdisc : t'.disciplined = true) : Guarded e t' where
  inv := h.inv.grows hgrow
  x_eq := h.x_eq
  x_kept i := (h.x_kept i).adds hadds
  c_exposed i ii hne hadj := (h.c_exposed i ii hne hadj).adds hadds
  disciplined := hdisc
  answers as b σ hmem := h.answers as b σ (hadds.mem_solve_iff.mp hmem)

/-- A part of a search without a refuted answer, which starts with a solve call. -/
structure Searched (e : Enumerator n) (firstCall : Bool) (t t' : Trace) : Prop where
  guarded : Guarded e t'
  grows : Trace.Grows t t'
  calls : ∃ calls as answer, t' = calls ++ .solve as firstCall answer :: t

/-- After a simplification the connections cannot be mentioned. -/
theorem Searched.eliminated (h : Guarded e t) (hs : Searched e firstCall t t')
    (hel : firstCall = false → Eliminated e t) : Eliminated e t' := by
  obtain ⟨calls, as, answer, rfl⟩ := hs.calls
  intro v u hne hadj
  apply Lit.usable_append
  cases firstCall with
  | true => exact (h.c_exposed v u hne hadj).solve as answer
  | false => exact Lit.usable_append (hel rfl v u hne hadj) [_]

/-- A search without a refuted answer only solves and excludes its result. -/
theorem wp_getPmc_guarded {fuel : ℕ} (hsolver : solver.Sound) (hg : e.graph.Valid)
    (hle : e.minsepEncoding ≤ 5) (h : Guarded e t) (hel : firstCall = false → Eliminated e t) :
    wp (getPmc solver sh as firstCall fuel e)
      (fun r t' => (r.2 = e ∧ Searched e firstCall t t') ∨ Broken e.graph t')
      (Balanced e.graph) t := by
  cases fuel with
  | zero => exact h.balanced
  | succ fuel =>
      rw [getPmc, wp_bind, solve, wp_bind, wp_get, wp_bind, wp_assert]
      split
      swap
      · exact h.balanced
      rw [wp_bind, wp_modify, wp_pure]
      have hgrow : ∀ answer, Trace.Grows t (.solve as firstCall answer :: t) := fun answer =>
        (Trace.Grows.refl h.inv.wellScoped).solve as firstCall answer
      cases hans : solver.answer t as firstCall with
      | none =>
          rw [Option.isSome_none, if_neg Bool.false_ne_true, wp_pure]
          exact Or.inl ⟨rfl, h.solve none fun σ hσ => absurd hσ.symm (Option.some_ne_none σ), hgrow _, [], as, none, rfl⟩
      | some σ =>
          obtain ⟨hσ, -⟩ := hsolver t as firstCall σ hans
          rw [Option.isSome_some, if_pos rfl, wp_bind]
          set t₁ : Trace := .solve as firstCall (some σ) :: t with ht₁
          have hanswer : t₁.lastAnswer = some σ := rfl
          have hinv := (Step.solve h.inv as firstCall (some σ)).inv
          have hkept : ∀ i, (e.xVar i).Kept t₁ := fun i => (h.x_kept i).cons _
          have hread : wp e.readSolution (fun r t' => t' = t₁ ∧ r.2 = e.solutionOf σ ∧
              ∀ l ∈ r.1, l.Valid t₁.numVars) (fun _ => False) t₁ :=
            wp_readSolution hanswer hinv.lits.x_valid fun clause hvalid _ => ⟨rfl, rfl, hvalid⟩
          apply wp_imp (wp_and_of_total hread (wp_readSolution_kept hkept))
          rintro ⟨clause, solution⟩ t₂ ⟨⟨rfl, rfl, hvalid⟩, hclause⟩
          have hnodup : (e.solutionOf σ).Nodup := (List.nodup_finRange n).filter _
          obtain ⟨b, hb, hiff⟩ := isPmc_spec hg hnodup
          have hset := h.vset_solutionOf σ
          dsimp only
          rw [wp_bind, hb, wp_ofOption_some]
          cases b with
          | true =>
              rw [if_pos rfl, wp_bind]
              apply wp_addClause hvalid
              rw [wp_pure]
              have hpmc := hset ▸ hiff.mp rfl
              have hgood : Guarded e t₁ := h.solve (some σ) fun σ' hσ' => by
                obtain rfl := Option.some.inj hσ'
                exact hpmc
              exact Or.inl ⟨rfl, hgood.addClause hvalid hclause, (hgrow _).addClause hvalid,
                [_], as, some σ, rfl⟩
          | false =>
              rw [if_neg Bool.false_ne_true, wp_bind]
              have hnot : ¬e.graph.toSimple.IsPotentialMaximalClique (vset (e.solutionOf σ)) :=
                fun hpmc => Bool.false_ne_true (hiff.mpr hpmc)
              have hbad := isPotentialMaximalClique_iff.not.mp hnot
              have hun : Eliminated e t₁ := fun v u hne hadj => by
                cases firstCall with
                | true => exact (h.c_exposed v u hne hadj).solve as (some σ)
                | false => exact Lit.usable_append (hel rfl v u hne hadj) [_]
              have hcalls : wp (e.blockBadSolution sh (e.solutionOf σ))
                  (fun _ t' => ¬AnswersPmc e.graph t') (fun _ => True) t₁ :=
                wp_mono (logs_blockBadSolution.wp (R := fun t' => ¬AnswersPmc e.graph t')
                  fun calls _ hall => hnot (hset ▸ hall as firstCall σ
                    (List.mem_append_right _ List.mem_cons_self))) (fun _ _ h => h)
                  fun _ _ => trivial
              apply wp_imp (wp_and_of_total
                (wp_blockBadSolution (E := fun _ => False) hg hle hinv hanswer hσ hbad)
                (wp_and (wp_blockBadSolution_violates hg hinv hanswer hσ hbad hun) hcalls))
              rintro e₁ t₂ ⟨-, hdisc, hnone⟩
              exact wp_imp (wp_broken logs_getPmc ⟨hdisc, hnone⟩) fun _ _ => Or.inr

end Enumerator

namespace SizedEnumerator

open Enumerator

variable {n : ℕ} {g : Graph n} {t t' : Trace} {solver : Solver} {sh : Shuffle}
  {as : List Lit}

/-! ## The loop of `AllPmcs` -/

theorem logs_allPmcsLoop {fuel rounds : ℕ} {firstCall : Bool} {pmcs : List (List (Fin n))}
    {e : Enumerator n} :
    Logs (fun _ => True) (allPmcsLoop solver sh as fuel rounds firstCall pmcs e) :=
  Uses.logs (uses_allPmcsLoop (b := true) e.canRead_all (fun _ _ => trivial)
    fun _ _ => trivial) solver

theorem logs_allPmcs {fuel k : ℕ} {e : SizedEnumerator n} :
    Logs (Event.Asks e.cardinalityNetwork) (allPmcs solver sh fuel k e) :=
  Uses.logs (uses_allPmcs (b := true) e.canRead_all rfl) solver

theorem wp_allPmcsLoop_guarded {fuel rounds : ℕ} {firstCall : Bool}
    {pmcs : List (List (Fin n))} {e : Enumerator n} (hsolver : solver.Sound)
    (hg : e.graph.Valid) (hle : e.minsepEncoding ≤ 5) (h : Guarded e t)
    (hel : firstCall = false → Eliminated e t) :
    wp (allPmcsLoop solver sh as fuel rounds firstCall pmcs e)
      (fun r t' => (r.2 = e ∧ Searched e firstCall t t') ∨ Broken e.graph t')
      (Balanced e.graph) t := by
  induction rounds generalizing firstCall pmcs t with
  | zero => exact h.balanced
  | succ rounds ih =>
      rw [allPmcsLoop, wp_bind]
      apply wp_imp (wp_getPmc_guarded hsolver hg hle h hel)
      rintro ⟨pmc, e₁⟩ t₁ (⟨rfl, h₁⟩ | hbroken)
      · dsimp only
        apply wp_ite
        · exact fun _ => Or.inl ⟨rfl, h₁⟩
        · intro _
          apply wp_imp (ih h₁.guarded fun _ => h₁.eliminated h hel)
          rintro r t₂ (⟨hr, h₂⟩ | hbroken)
          · obtain ⟨calls, as', answer, rfl⟩ := h₁.calls
            obtain ⟨calls₂, as₂, answer₂, rfl⟩ := h₂.calls
            refine Or.inl ⟨hr, h₂.guarded, h₁.grows.trans h₂.grows,
              calls₂ ++ .solve as₂ false answer₂ :: calls, as', answer, ?_⟩
            rw [List.append_assoc, List.cons_append]
          · exact Or.inr hbroken
      · apply wp_ite
        · exact fun _ => Or.inr hbroken
        · exact fun _ => wp_imp (wp_broken logs_allPmcsLoop hbroken) fun _ _ => Or.inr

/-! ## The calls of `AllPmcs` -/

theorem logs_calls {fuel : ℕ} (ks : List ℕ)
    (s : List (List (List (Fin n))) × SizedEnumerator n) :
    Logs (Event.Asks s.2.cardinalityNetwork) (calls solver sh fuel ks s) :=
  Uses.logs (uses_calls (b := true) s.2.canRead_all) solver

/-- The state after the calls up to `k` without a refuted answer. -/
structure Running (g : Graph n) (input : List Lit) (e : SizedEnumerator n) (t : Trace)
    (k : ℕ) : Prop where
  graph_eq : e.graph = g
  encoding_le : e.minsepEncoding ≤ 5
  guarded : Guarded e.toEnumerator t
  card : CardInv e input t k
  kept : e.cardEncoding = 1 → e.tb.Kept t
  curSize_eq : e.cardEncoding = 1 → 0 < k → e.tb.curSize = k + 1

/-- The totalizer can be built to the next size: the inputs can be mentioned, or no node with
a leaf below it is extended. -/
def Supplied (input : List Lit) (t : Trace) (k : ℕ) : Prop :=
  (∀ y ∈ input, y.usable t = true) ∨ (0 < k ∧ ∃ p, input.length = 2 ^ p) ∨ 2 ≤ k

/-- A call of `AllPmcs` starts its search with a simplification. -/
def Called (t t' : Trace) : Prop :=
  ∃ t₁, t.Adds t₁ ∧ ∃ calls as answer, t' = calls ++ .solve as true answer :: t₁

theorem Called.append (h : Called t t') : ∃ calls, t' = calls ++ t := by
  obtain ⟨t₁, hadds, calls, as, answer, rfl⟩ := h
  obtain ⟨calls₁, rfl, -⟩ := hadds.calls
  exact ⟨calls ++ .solve as true answer :: calls₁, by rw [List.append_assoc, List.cons_append]⟩

theorem Called.usable (h : Called t t') {l : Lit} (hl : l.Exposed t) :
    l.usable t' = false := by
  obtain ⟨t₁, hadds, calls, as, answer, rfl⟩ := h
  exact Lit.usable_append ((hl.adds hadds).solve as answer) calls

/-- The nodes with a leaf below them get no output in the next size, when the inputs cannot
be mentioned. -/
theorem Supplied.leaves {input : List Lit} {tb : TotalizerBuilder} {k : ℕ}
    (h : Supplied input t k) (hin : tb.input = input) (h2 : 2 ≤ input.length)
    (hcur : 0 < k → tb.curSize = k + 1) :
    (∀ y ∈ tb.input, y.usable t = true) ∨ TotalizerBuilder.LeavesDone (tb.curSize + 1).toNat
      tb.input.length 1 0 (tb.input.length - 1) := by
  rw [hin]
  rcases h with hall | ⟨hk, hpow⟩ | hk
  · exact Or.inl hall
  · right
    rw [hcur hk]
    by_cases h1 : k = 1
    · subst h1
      apply TotalizerBuilder.NoThree.leavesDone (m := input.length) _ (Nat.zero_le _) (by omega)
      rw [TotalizerBuilder.noThree_iff (Nat.zero_le _) (by omega),
        show input.length - 1 + 1 - 0 = input.length by omega]
      exact hpow
    · exact TotalizerBuilder.leavesDone_of_four (by omega) _ _ _ _
  · right
    rw [hcur (by omega)]
    exact TotalizerBuilder.leavesDone_of_four (by omega) _ _ _ _

/-- The part of `AllPmcs` that builds more outputs. -/
theorem wp_buildCounter_kept {input : List Lit} {e : SizedEnumerator n} {k : ℕ}
    (h : Running g input e t k) (hsupply : e.cardEncoding = 1 → Supplied input t k) :
    wp (if e.cardEncoding = 1 then e.tb.buildToSize (k + 1 + 1) else pure e.tb)
      (fun tb t' => t.Adds t' ∧ t'.disciplined = true ∧ (e.cardEncoding = 1 → tb.Kept t'))
      (fun _ => True) t := by
  apply wp_ite
  · intro h1
    obtain ⟨hinv, hin, -⟩ := h.card.totalizer h1
    have h2 := hinv.two_le
    apply wp_imp (TotalizerBuilder.wp_buildToSize_kept h.guarded.inv.wellScoped hinv
      h.guarded.disciplined (h.kept h1)
      ((hsupply h1).leaves hin (hin ▸ h2) (h.curSize_eq h1)))
    exact fun _ _ h => ⟨h.1, h.2.1, fun _ => h.2.2⟩
  · exact fun h1 => ⟨Trace.Adds.refl t, h.guarded.disciplined, fun h1' => absurd h1' h1⟩

/-- A call of `AllPmcs`. -/
theorem wp_allPmcs_guarded {input : List Lit} {e : SizedEnumerator n} {fuel k : ℕ}
    (hsolver : solver.Sound) (hg : g.Valid) (h : Running g input e t k)
    (hsupply : e.cardEncoding = 1 → Supplied input t k) :
    wp (allPmcs solver sh fuel (k + 1) e)
      (fun r t' => (Running g input r.2 t' (k + 1) ∧ r.2.cardEncoding = e.cardEncoding ∧
        Called t t') ∨ Broken g t') (Balanced g) t := by
  have hgraph := h.graph_eq
  have hbalanced : Balanced g t := hgraph ▸ h.guarded.balanced
  rw [allPmcs, wp_bind]
  by_cases hlarge : e.cardEncoding = 1 ∧ input.length ≤ k + 1
  · -- There is no totalizer of this size.
    obtain ⟨-, hin, -⟩ := h.card.totalizer hlarge.1
    rw [if_pos hlarge.1, TotalizerBuilder.buildToSize, wp_bind, wp_assert,
      if_neg (by rw [hin, decide_eq_true_iff]; omega)]
    exact hbalanced
  apply wp_imp (wp_and_of_total (wp_buildCounter (E := fun _ => False)
    h.guarded.inv.wellScoped h.card fun h1 => by omega) (wp_buildCounter_kept h hsupply))
  rintro tb t₁ ⟨⟨hgrow, hcard, hbuilt, -⟩, hadds, hdisc, hkept⟩
  have hguarded := h.guarded.adds hadds hgrow hdisc
  rw [wp_bind, ← hgraph]
  apply wp_imp (wp_allPmcsLoop_guarded hsolver (hgraph ▸ hg) h.encoding_le hguarded
    fun hfalse => Bool.noConfusion hfalse)
  rintro ⟨pmcs, e₁⟩ t₂ (⟨rfl, hs⟩ | hbroken)
  · obtain ⟨calls, as', answer, rfl⟩ := hs.calls
    rw [wp_pure]
    have hcard₂ := hcard.grows hs.grows
    refine Or.inl ⟨⟨rfl, h.encoding_le, hs.guarded, hcard₂, fun h1 => ?_, fun h1 _ => hbuilt h1⟩,
      rfl, t₁, hadds, calls, as', answer, rfl⟩
    rw [List.append_cons]
    exact (hkept h1).append (hcard.totalizer h1).1.two_le
  · exact Or.inr hbroken

/-- More calls of `AllPmcs`. -/
theorem wp_calls_guarded {input : List Lit} {fuel k m : ℕ}
    {s : List (List (List (Fin n))) × SizedEnumerator n} (hsolver : solver.Sound)
    (hg : g.Valid) (h : Running g input s.2 t k)
    (hsupply : s.2.cardEncoding = 1 → ∀ i < m, ∀ calls, Supplied input (calls ++ t) (k + i)) :
    wp (calls solver sh fuel (List.range' (k + 1) m) s) (fun _ t' => Balanced g t')
      (Balanced g) t := by
  have hloop := wp_foldlM_range' (E := Balanced g) (k := k + 1) (m := m) (s := t) (b := s)
    (f := fun s k => do
      let r ← allPmcs solver sh fuel k s.2
      pure (s.1 ++ [r.1], r.2))
    (fun i s' t' => (Running g input s'.2 t' (k + i) ∧ s'.2.cardEncoding = s.2.cardEncoding ∧
      ∃ calls, t' = calls ++ t) ∨ Broken g t')
    (Or.inl ⟨h, rfl, [], rfl⟩) ?_
  · apply wp_imp hloop
    rintro s' t' (⟨hrun, -⟩ | hbroken)
    · exact hrun.graph_eq ▸ hrun.guarded.balanced
    · exact hbroken.balanced
  rintro i hi s' t' (⟨hrun, henc, calls, rfl⟩ | hbroken)
  · rw [wp_bind, show k + 1 + i = k + i + 1 by omega]
    apply wp_imp (wp_allPmcs_guarded hsolver hg hrun fun h1 => hsupply (henc ▸ h1) i hi calls)
    rintro r t₂ (⟨hrun₂, henc₂, hcalled⟩ | hbroken)
    · obtain ⟨calls₂, rfl⟩ := hcalled.append
      exact Or.inl ⟨hrun₂, henc₂.trans henc, calls₂ ++ calls, (List.append_assoc ..).symm⟩
    · exact Or.inr hbroken
  · exact wp_imp (wp_broken (logs_allPmcs.bind fun _ => Logs.pure _) hbroken) fun _ _ => Or.inr

/-- The second call of `AllPmcs` needs inputs that can have been eliminated. -/
theorem wp_allPmcs_violates {input : List Lit} {e : SizedEnumerator n} {fuel : ℕ}
    (h : Running g input e t 1) (h1 : e.cardEncoding = 1)
    (hun : ∀ y ∈ input, y.usable t = false) (hpow : ¬∃ p, input.length = 2 ^ p) :
    wp (allPmcs solver sh fuel 2 e) (fun _ t' => t'.disciplined = false)
      (fun t' => t'.disciplined = false) t := by
  obtain ⟨hinv, hin, -⟩ := h.card.totalizer h1
  have hlarge : 1 + 1 < input.length := by
    have h2 := hinv.two_le
    rw [hin] at h2
    by_contra hle
    exact hpow ⟨1, by omega⟩
  have hbuild : wp (if e.cardEncoding = 1 then e.tb.buildToSize (2 + 1) else pure e.tb)
      (fun _ t' => t'.disciplined = false) (fun _ => True) t := by
    rw [if_pos h1]
    exact TotalizerBuilder.wp_buildToSize_violates h.guarded.inv.wellScoped hinv
      (h.curSize_eq h1 one_pos) (hin.symm ▸ hun) (hin.symm ▸ hpow)
  rw [allPmcs, wp_bind]
  apply wp_imp (wp_and_of_total (wp_buildCounter (E := fun _ => False)
    h.guarded.inv.wellScoped h.card fun _ => hlarge) hbuild)
  rintro tb t₁ ⟨-, hdisc⟩
  exact (logs_allPmcsLoop.bind fun _ => Logs.pure _).wp
    fun calls _ => Trace.not_disciplined_append hdisc calls

theorem wp_calls_violates {input : List Lit} {fuel m : ℕ}
    {s : List (List (List (Fin n))) × SizedEnumerator n} (h : Running g input s.2 t 1)
    (h1 : s.2.cardEncoding = 1) (hun : ∀ y ∈ input, y.usable t = false)
    (hpow : ¬∃ p, input.length = 2 ^ p) (hm : 0 < m) :
    wp (calls solver sh fuel (List.range' 2 m) s) (fun _ t' => t'.disciplined = false)
      (fun t' => t'.disciplined = false) t := by
  obtain ⟨m, rfl⟩ := Nat.exists_eq_add_of_lt hm
  rw [Nat.zero_add, calls, List.range'_succ, List.foldlM_cons, wp_bind, wp_bind]
  apply wp_imp (wp_allPmcs_violates h h1 hun hpow)
  intro r t₁ hdisc
  exact (logs_calls _ _).wp (R := fun t' : Trace => t'.disciplined = false)
    fun calls _ => Trace.not_disciplined_append hdisc calls

section Calls

variable {e : SizedEnumerator n} {fuel m : ℕ} {t₁ : Trace}

/-- The first call and the later ones. -/
theorem run_succ : e.run solver sh fuel (m + 1) = (do
    let r ← allPmcs solver sh fuel 1 e
    calls solver sh fuel (List.range' 2 m) ([r.1], r.2)) := by
  rw [SizedEnumerator.run, List.range'_succ, List.foldlM_cons, bind_assoc]
  rfl

theorem run_succ_of_none (h : allPmcs solver sh fuel 1 e t = (none, t₁)) :
    e.run solver sh fuel (m + 1) t = (none, t₁) := by
  rw [run_succ]
  simp only [Bind.bind, andThen, h, Option.elim_none]

theorem run_succ_of_some {r : List (List (Fin n)) × SizedEnumerator n}
    (h : allPmcs solver sh fuel 1 e t = (some r, t₁)) :
    e.run solver sh fuel (m + 1) t =
      calls solver sh fuel (List.range' 2 m) ([r.1], r.2) t₁ := by
  rw [run_succ]
  simp only [Bind.bind, andThen, h, Option.elim_some]

end Calls

/-! ## The constructors -/

/-- The state before the first call. -/
theorem wp_withCardinality_running {cardEncoding : ℕ} {input : List Lit} {e : Enumerator n}
    {E : Trace → Prop} (hinv : Inv e t) (hfresh : Fresh e t) (henc : e.minsepEncoding ≤ 5)
    (hcard : cardEncoding ≤ 1) (h2 : 2 ≤ input.length)
    (hinput : ∀ l ∈ input, l.Known t.numVars) :
    wp (withCardinality e cardEncoding input input.length)
      (fun se t' => se.cardEncoding = cardEncoding ∧ Running e.graph input se t' 0 ∧
        t.Adds t' ∧ t'.Unsolved ∧ ∀ l ∈ se.cardinalityNetwork, l.Kept t') E t := by
  apply wp_imp (wp_and_of_total
    (wp_withCardinality (E := fun _ => False) (e := e) hinv.wellScoped hcard h2 hinput)
    (wp_withCardinality_fresh hinv.wellScoped hfresh.unsolved hcard h2 hinput))
  rintro se t' ⟨-, rfl, rfl, hadds, hgrow, hcardInv, hnetwork, hkept⟩
  have hfresh' := hfresh.adds hadds
  refine ⟨rfl, ⟨rfl, henc, ⟨hinv.grows hgrow, hfresh'.x_eq, hfresh'.x_kept, hfresh'.c_exposed,
    hfresh'.unsolved.disciplined, fun as b σ hmem => ?_⟩, hcardInv, hkept,
    fun _ hpos => absurd hpos (lt_irrefl 0)⟩, hadds, hfresh'.unsolved, hnetwork⟩
  exact (hfresh'.unsolved _ hmem).elim

end SizedEnumerator

/-! ## Graphs -/

namespace FixedSizeEnumerator

open Enumerator SizedEnumerator

variable {n : ℕ} {g : Graph n}

/-- The inputs of the cardinality constraint are frozen. -/
theorem wp_new_running {minsepEncoding cardEncoding : ℕ} {E : Trace → Prop} (hg : g.Valid)
    (hn : 2 ≤ n) (henc : minsepEncoding ≤ 5) (hcard : cardEncoding ≤ 1) :
    wp (new g minsepEncoding cardEncoding)
      (fun e t => t.Unsolved ∧ (∀ l ∈ e.cardinalityNetwork, l.Kept t) ∧
        ∃ input, Running g input e t 0 ∧ ∀ y ∈ input, y.Kept t) E [] := by
  rw [new, wp_bind]
  apply wp_imp (wp_and_of_total (Enumerator.wp_new (E := fun _ => False) hg minsepEncoding)
    (wp_new_fresh hg minsepEncoding))
  rintro e t ⟨⟨hinv, rfl, rfl, -⟩, hfresh⟩
  have hlen : e.xVars.length = n := by simp [xVars]
  have hknown : ∀ l ∈ e.xVars, l.Known t.numVars := by
    intro l hl
    obtain ⟨i, -, rfl⟩ := List.mem_map.mp hl
    rw [hfresh.x_eq]
    exact hfresh.frozenScoped i (hfresh.x_frozen i)
  have hrun := wp_withCardinality_running (E := E) hinv hfresh henc hcard (by omega) hknown
  rw [hlen] at hrun
  apply wp_imp hrun
  rintro se t' ⟨-, hrunning, hadds, hunsolved, hnetwork⟩
  refine ⟨hunsolved, hnetwork, e.xVars, hrunning, List.forall_mem_map.mpr fun i _ => ?_⟩
  exact (hfresh.x_kept i).adds hadds

section Run

variable {minsepEncoding cardEncoding K fuel : ℕ} {solver : Solver}

theorem balanced_run (hsolver : solver.Sound) (sh : Shuffle) (hg : g.Valid) (hn : 2 ≤ n)
    (henc : minsepEncoding ≤ 5) (hcard : cardEncoding ≤ 1) :
    Balanced g (run g minsepEncoding cardEncoding solver sh fuel K []).2 := by
  apply state_of_wp (R := Balanced g)
  rw [run, wp_bind]
  apply wp_imp (wp_new_running hg hn henc hcard)
  rintro e t ⟨-, -, input, hrunning, hkept⟩
  rw [wp_bind]
  exact wp_calls_guarded hsolver hg hrunning fun _ _ _ calls =>
    Or.inl fun y hy => ((hkept y hy).append calls).usable

end Run

/-- The runs keep the freeze discipline exactly when every answer of the solver is a
potential maximal clique: the variables of the clauses that refute an answer are not
frozen. -/
theorem freezeDiscipline_of_size {minsepEncoding cardEncoding K fuel : ℕ} {solver : Solver}
    (hsolver : solver.Sound) (sh : Shuffle) (hg : g.Valid) (hn : 2 ≤ n)
    (henc : minsepEncoding ≤ 5) (hcard : cardEncoding ≤ 1) :
    (run g minsepEncoding cardEncoding solver sh fuel K []).2.FreezeDiscipline ↔
      AnswersPmc g (run g minsepEncoding cardEncoding solver sh fuel K []).2 := by
  rw [Trace.freezeDiscipline_iff]
  exact balanced_run hsolver sh hg hn henc hcard

theorem freezeDiscipline_of_size_cycle :
    ∃ g, fourCycle = some g ∧
      ((run g 3 1 Solver.choice Shuffle.none 20 3 []).2.FreezeDiscipline ↔
        AnswersPmc g (run g 3 1 Solver.choice Shuffle.none 20 3 []).2) := by
  obtain ⟨g, hcycle, hg, -⟩ := exists_fourCycle
  exact ⟨g, hcycle, freezeDiscipline_of_size Solver.exact_choice.sound Shuffle.none hg
    (by decide) (by decide) le_rfl⟩

end FixedSizeEnumerator

/-! ## Hypergraphs -/

namespace FixedSizeHyperEnumerator

open Enumerator SizedEnumerator

variable {n : ℕ} {h : HyperGraph n} {t : Trace}

/-- The variables of the hyperedges are not frozen. -/
theorem wp_edgeVars_exposed (ht : t.FrozenScoped) (edges : List (List (Fin n))) :
    wp (edges.foldlM
        (fun edgeVars _ => do
          let v ← newVar
          pure (edgeVars ++ [v]))
        ([] : List Lit))
      (fun edgeVars t' => t.Adds t' ∧ ∀ l ∈ edgeVars, l.Exposed t') (fun _ => True) t := by
  apply wp_imp (wp_foldlM (fun _ (edgeVars : List Lit) t' => t.Adds t' ∧
    (∀ v, t'.frozen v = t.frozen v) ∧ ∀ l ∈ edgeVars, l.Exposed t')
    ⟨Trace.Adds.refl t, fun _ => rfl, by simp⟩ ?_)
  · exact fun _ _ h => ⟨h.1, h.2.2⟩
  rintro pre edge post edgeVars t₁ - ⟨hadds, hfrozen, hexposed⟩
  rw [wp_bind, wp_newVar, wp_pure]
  refine ⟨hadds.newVar, hfrozen, List.forall_mem_append.mpr ⟨fun l hl => ?_, fun l hl => ?_⟩⟩
  · exact (hexposed l hl).adds (Trace.Adds.refl t₁).newVar
  · obtain rfl := List.mem_singleton.mp hl
    refine Or.inr ⟨Nat.lt_succ_self _, ?_⟩
    rw [Bool.eq_false_iff]
    intro hf
    have hlt := ht _ ((hfrozen _).symm.trans hf)
    exact absurd hadds.numVars_le (not_le.mpr hlt)

/-- The state before the first call; the inputs of the cardinality constraint are not
frozen. -/
theorem wp_new_running {minsepEncoding cardEncoding : ℕ} {E : Trace → Prop} (hh : h.Valid)
    (hm : 2 ≤ h.edges.length) (henc : minsepEncoding ≤ 5) (hcard : cardEncoding ≤ 1) :
    wp (new h minsepEncoding cardEncoding)
      (fun e t => e.cardEncoding = cardEncoding ∧ t.Unsolved ∧
        (∀ l ∈ e.cardinalityNetwork, l.Kept t) ∧
        ∃ input, input.length = h.edges.length ∧ Running h.primal input e t 0 ∧
          ∀ y ∈ input, y.Exposed t) E [] := by
  rw [new, wp_bind]
  apply wp_imp (wp_and_of_total
    (Enumerator.wp_new (E := fun _ => False) hh.primal minsepEncoding)
    (wp_new_fresh hh.primal minsepEncoding))
  rintro e t ⟨⟨hinv, hgraph, hencoding, -⟩, hfresh⟩
  rw [wp_bind]
  apply wp_imp (wp_and_of_total (wp_edgeVars (E := fun _ => False) hinv.wellScoped h.edges)
    (wp_edgeVars_exposed hfresh.frozenScoped h.edges))
  rintro edgeVars t₁ ⟨⟨hlen, hgrow₁, hknown, -⟩, hadds₁, hexposed⟩
  have hinv₁ := hinv.grows hgrow₁
  rw [wp_bind]
  have hcover : wp (forM (List.finRange n) fun i =>
      addClause (-e.xVar i :: (h.inEdge i).map fun j => edgeVars.getD j .undef))
      (fun _ t' => Trace.Grows t₁ t') (fun _ => False) t₁ :=
    (emits_coverClauses hinv₁.lits.x_valid hlen hknown).wp hgrow₁.wellScoped le_rfl
      fun t₂ hnum₂ ht₂ hmod₂ => ⟨hnum₂.ge, ht₂, fun σ hσ => ((hmod₂ σ).mp hσ).1⟩
  have hbuilds : Builds Event.Quiet (forM (List.finRange n) fun i =>
      addClause (-e.xVar i :: (h.inEdge i).map fun j => edgeVars.getD j .undef)) :=
    Builds.forM (fun _ => builds_addClause trivial) _
  apply wp_imp (wp_and_of_total hcover (wp_addsQuietly hbuilds))
  rintro _ t₂ ⟨hgrow₂, hquiet⟩
  have hrun := wp_withCardinality_running (E := E) (hinv₁.grows hgrow₂)
    ((hfresh.adds hadds₁).adds hquiet.toAdds) (hencoding ▸ henc) hcard (hlen ▸ hm)
    fun l hl => hgrow₂.known (hknown l hl)
  rw [hlen, hgraph] at hrun
  apply wp_imp hrun
  rintro se t₃ ⟨hcardEncoding, hrunning, hadds₃, hunsolved, hnetwork⟩
  exact ⟨hcardEncoding, hunsolved, hnetwork, edgeVars, hlen, hrunning, fun y hy =>
    ((hexposed y hy).adds hquiet.toAdds).adds hadds₃⟩

/-- The run of an enumerator after the constructor. -/
theorem run_eq {e : SizedEnumerator n} {minsepEncoding cardEncoding fuel K : ℕ}
    {solver : Solver} {sh : Shuffle}
    (hnew : new h minsepEncoding cardEncoding [] = (some e, t)) :
    run h minsepEncoding cardEncoding solver sh fuel K [] =
      ((e.run solver sh fuel K t).1.map Prod.fst, (e.run solver sh fuel K t).2) := by
  simp only [run, Bind.bind, andThen, hnew, Option.elim_some]
  cases (e.run solver sh fuel K t).1 with
  | none => rfl
  | some r => rfl

/-- What the discipline of a run over hyperedges depends on. -/
theorem disciplined_run_iff {minsepEncoding cardEncoding K fuel : ℕ} {solver : Solver}
    (hsolver : solver.Sound) (sh : Shuffle) (hh : h.Valid) (hm : 2 ≤ h.edges.length)
    (henc : minsepEncoding ≤ 5) (hcard : cardEncoding ≤ 1) :
    (run h minsepEncoding cardEncoding solver sh fuel K []).2.disciplined = true ↔
      AnswersPmc h.primal (run h minsepEncoding cardEncoding solver sh fuel K []).2 ∧
      ¬(cardEncoding = 1 ∧ (¬∃ p, h.edges.length = 2 ^ p) ∧ 2 ≤ K ∧
        (run h minsepEncoding cardEncoding solver sh fuel 1 []).1.isSome = true) := by
  obtain ⟨e, t, hnew, rfl, hunsolved, -, input, hlen, hrunning, hexposed⟩ :=
    exists_of_wp (wp_new_running hh hm henc hcard)
  rw [run_eq hnew, run_eq hnew, Option.isSome_map]
  have hstart : Balanced h.primal t := hrunning.graph_eq ▸ hrunning.guarded.balanced
  cases K with
  | zero =>
      change t.disciplined = true ↔ AnswersPmc h.primal t ∧ _
      rw [and_iff_left fun hbad => absurd hbad.2.2.1 (by omega)]
      exact hstart
  | succ m =>
      have hfirst : wp (allPmcs solver sh fuel 1 e) _ (Balanced h.primal) t :=
        wp_allPmcs_guarded hsolver hh.primal hrunning fun _ =>
          Or.inl fun y _ => hunsolved.usable y
      rw [wp] at hfirst
      cases hcall : allPmcs solver sh fuel 1 e t with
      | mk res t₁ =>
      rw [hcall] at hfirst
      cases res with
      | none =>
          -- The first call does not return, so there is no second one.
          rw [run_succ_of_none hcall, run_succ_of_none hcall]
          rw [and_iff_left fun hbad => Bool.false_ne_true hbad.2.2.2]
          exact hfirst
      | some r =>
          rw [run_succ_of_some hcall, run_succ_of_some hcall]
          have hreturns : ((calls solver sh fuel (List.range' 2 0) ([r.1], r.2)) t₁).1.isSome =
              true := rfl
          rw [and_iff_left hreturns]
          rcases hfirst with ⟨hrunning₁, henc₁, hcalled⟩ | hbroken
          swap
          · have hlast : Broken h.primal (calls solver sh fuel (List.range' 2 m) ([r.1], r.2) t₁).2 :=
              state_of_wp ((logs_calls _ _).wp fun calls _ => hbroken.append calls)
            exact iff_of_false (Bool.eq_false_iff.mp hlast.disciplined)
              fun hall => hlast.answers hall.1
          by_cases hbad : e.cardEncoding = 1 ∧ (¬∃ p, h.edges.length = 2 ^ p) ∧ 2 ≤ m + 1
          · have hlast : (calls solver sh fuel (List.range' 2 m) ([r.1], r.2) t₁).2.disciplined =
                false :=
              state_of_wp (wp_calls_violates hrunning₁ (henc₁.trans hbad.1)
                (fun y hy => hcalled.usable (hexposed y hy)) (hlen ▸ hbad.2.1) (by omega))
            exact iff_of_false (Bool.eq_false_iff.mp hlast) fun hall => hall.2 hbad
          · rw [and_iff_left hbad]
            have hlast : wp (calls solver sh fuel (List.range' 2 m) ([r.1], r.2))
                (fun _ t' => Balanced h.primal t') (Balanced h.primal) t₁ := by
              refine wp_calls_guarded hsolver hh.primal hrunning₁ fun h1 i hi calls => ?_
              refine Or.inr (Or.inl ⟨by omega, ?_⟩)
              by_contra hpow
              exact hbad ⟨henc₁ ▸ h1, hlen ▸ hpow, by omega⟩
            exact state_of_wp hlast

/-- The runs over hyperedges keep the freeze discipline exactly when, in addition, no second
call of `AllPmcs` builds a totalizer over a number of hyperedges that is not a power of
two. -/
theorem freezeDiscipline_of_cover {minsepEncoding cardEncoding K fuel : ℕ} {solver : Solver}
    (hsolver : solver.Sound) (sh : Shuffle) (hh : h.Valid) (hm : 2 ≤ h.edges.length)
    (henc : minsepEncoding ≤ 5) (hcard : cardEncoding ≤ 1) :
    (run h minsepEncoding cardEncoding solver sh fuel K []).2.FreezeDiscipline ↔
      AnswersPmc h.primal (run h minsepEncoding cardEncoding solver sh fuel K []).2 ∧
      ¬(cardEncoding = 1 ∧ (¬∃ p, h.edges.length = 2 ^ p) ∧ 2 ≤ K ∧
        (run h minsepEncoding cardEncoding solver sh fuel 1 []).1.isSome = true) := by
  rw [Trace.freezeDiscipline_iff]
  exact disciplined_run_iff hsolver sh hh hm henc hcard

theorem freezeDiscipline_of_cover_twoEdges :
    ∃ h₁ h, (HyperGraph.empty 2).addEdge [0, 1] = some h₁ ∧ h₁.addEdge [1] = some h ∧
      ((run h 0 1 Solver.choice Shuffle.none 9 2 []).2.FreezeDiscipline ↔
        AnswersPmc h.primal (run h 0 1 Solver.choice Shuffle.none 9 2 []).2 ∧
        ¬((1 = 1) ∧ (¬∃ p, h.edges.length = 2 ^ p) ∧ 2 ≤ 2 ∧
          (run h 0 1 Solver.choice Shuffle.none 9 1 []).1.isSome = true)) := by
  obtain ⟨h₁, hadd₁, hv₁, hedges₁⟩ := HyperGraph.addEdge_spec (HyperGraph.valid_empty 2) [0, 1]
  obtain ⟨h, hadd, hv, hedges⟩ := HyperGraph.addEdge_spec hv₁ [1]
  have hlen : h.edges.length = 2 := by
    rw [hedges, hedges₁]
    rfl
  exact ⟨h₁, h, hadd₁, hadd, freezeDiscipline_of_cover Solver.exact_choice.sound Shuffle.none hv
    hlen.ge (by omega) le_rfl⟩

/-- The three pairs of three vertices, with a solver that finds no model. -/
example : (do
    let h ← (HyperGraph.empty 3).addEdge [0, 1]
    let h ← h.addEdge [1, 2]
    let h ← h.addEdge [0, 2]
    pure (decide (run h 0 1 ⟨fun _ _ _ => none⟩ Shuffle.none 1 2 []).2.FreezeDiscipline)) =
      some false := by
  decide +kernel

end FixedSizeHyperEnumerator

end Triangulator
