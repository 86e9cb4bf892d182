import Triangulator.Verification.GraphUpdate
import Triangulator.Verification.Search

/-!
# Runs of refinement steps

A run of an enumerator: its construction, calls to the solver by anyone that leave the
clauses over created variables, and refinement steps on models of the clauses.  What the
steps learn holds for the values of every vertex set, every step excludes the values it
started from, and the path length encoding leaves nothing to refine.
-/

namespace Triangulator

open AbortM SimpleGraph

/-- `t'` continues `t` by calls that leave the clauses over created variables. -/
def Trace.Continues (t t' : Trace) : Prop :=
  t'.Scoped ∧ ∃ calls : List Event, t' = calls ++ t

theorem Trace.Continues.grows {t t' : Trace} (h : t.Continues t') : t.Grows t' := by
  obtain ⟨ht', calls, rfl⟩ := h
  have hcalls : ∀ calls : List Event, t.numVars ≤ numVars (calls ++ t) ∧
      ∃ added, clauses (calls ++ t) = added ++ t.clauses := by
    intro calls
    induction calls with
    | nil => exact ⟨le_rfl, [], rfl⟩
    | cons call calls ih =>
        obtain ⟨hle, added, hadd⟩ := ih
        rw [List.cons_append]
        cases call with
        | newVar => exact ⟨hle.trans (Nat.le_succ _), added, hadd⟩
        | addClause clause => exact ⟨hle, clause :: added, congrArg (clause :: ·) hadd⟩
        | freezeVar l => exact ⟨hle, added, hadd⟩
        | solve as b answer => exact ⟨hle, added, hadd⟩
  obtain ⟨hle, added, hadd⟩ := hcalls calls
  refine ⟨hle, ht', fun σ hσ => ?_⟩
  rw [Models, hadd, List.forall_mem_append] at hσ
  exact hσ.2

namespace Enumerator

variable {n : ℕ}

/-- The states of a run, with the clauses learned by refinement. -/
inductive Reached (g : Graph n) (minsepEncoding : ℕ) (sh : Shuffle) :
    Enumerator n → Trace → List (List Lit) → Prop
  | start {e t} (hnew : new g minsepEncoding [] = (some e, t)) :
      Reached g minsepEncoding sh e t []
  | calls {e t t' learned} (h : Reached g minsepEncoding sh e t learned)
      (ht : t.Continues t') : Reached g minsepEncoding sh e t' learned
  | refine {e e' t t' learned σ added} (h : Reached g minsepEncoding sh e t learned)
      (hanswer : t.lastAnswer = some σ) (hσ : t.Models σ)
      (hbad : ¬g.toSimple.IsPotentialMaximalClique (vset (e.solutionOf σ)))
      (hrun : e.blockBadSolution sh (e.solutionOf σ) t = (some e', t'))
      (hadd : t'.clauses = added ++ t.clauses) :
      Reached g minsepEncoding sh e' t' (added ++ learned)

/-- What holds in every state of a run. -/
structure RunState (g : Graph n) (minsepEncoding : ℕ) (e : Enumerator n) (t : Trace)
    (learned : List (List Lit)) : Prop where
  graph_eq : e.graph = g
  encoding_eq : e.minsepEncoding = minsepEncoding
  inv : Inv e t
  learned_holds : ∀ Ω σ, Canonical e σ Ω → ∀ clause ∈ learned, Holds σ clause
  canonical : ∀ Ω, g.toSimple.IsPmc (vset Ω) → ∃ σ, Canonical e σ Ω
  separated : minsepEncoding = 0 ∨ minsepEncoding = 5 → AllSeparated e t

section Runs

variable {g : Graph n} {minsepEncoding : ℕ} {sh : Shuffle} {e e' : Enumerator n}
  {t t' : Trace} {learned : List (List Lit)} {σ : ℕ → Bool}

theorem exists_new (hg : g.Valid) (minsepEncoding : ℕ) :
    ∃ e t, new g minsepEncoding [] = (some e, t) :=
  let ⟨e, t, h, _⟩ := exists_of_wp (wp_new hg minsepEncoding)
  ⟨e, t, h⟩

theorem runState_new (hg : g.Valid) (hnew : new g minsepEncoding [] = (some e, t)) :
    RunState g minsepEncoding e t [] := by
  obtain ⟨hinv, hgraph, henc, hnil, hmodel⟩ :=
    post_of_wp (E := fun _ => True) (wp_new hg minsepEncoding) hnew
  refine ⟨hgraph, henc, hinv, fun _ _ _ => by simp, fun Ω hΩ => ?_, fun _ => ?_⟩
  · obtain ⟨σ, -, hc⟩ := hmodel Ω hΩ
    exact ⟨σ, hc⟩
  · rw [AllSeparated, hnil]
    exact fun p hp => absurd hp List.not_mem_nil

theorem RunState.continues (h : RunState g minsepEncoding e t learned)
    (ht : t.Continues t') : RunState g minsepEncoding e t' learned :=
  ⟨h.graph_eq, h.encoding_eq, h.inv.grows ht.grows, h.learned_holds, h.canonical,
    fun h05 p hp σ hσ => h.separated h05 p hp σ (ht.grows.models σ hσ)⟩

/-- `BlockBadSolution` returns and refines. -/
theorem RunState.exists_block (hg : g.Valid) (hle : minsepEncoding ≤ 5)
    (h : RunState g minsepEncoding e t learned) (hanswer : t.lastAnswer = some σ)
    (hσ : t.Models σ)
    (hbad : ¬g.toSimple.IsPotentialMaximalClique (vset (e.solutionOf σ))) (sh : Shuffle) :
    ∃ e' t', e.blockBadSolution sh (e.solutionOf σ) t = (some e', t') ∧
      Refines e e' t t' σ := by
  rw [isPotentialMaximalClique_iff, ← h.graph_eq] at hbad
  exact exists_of_wp (wp_blockBadSolution (h.graph_eq ▸ hg) (h.encoding_eq ▸ hle) h.inv
    hanswer hσ hbad)

theorem RunState.refine (hg : g.Valid) (hle : minsepEncoding ≤ 5)
    (h : RunState g minsepEncoding e t learned) (hanswer : t.lastAnswer = some σ)
    (hσ : t.Models σ)
    (hbad : ¬g.toSimple.IsPotentialMaximalClique (vset (e.solutionOf σ)))
    (hrun : e.blockBadSolution sh (e.solutionOf σ) t = (some e', t'))
    {added : List (List Lit)} (hadd : t'.clauses = added ++ t.clauses) :
    RunState g minsepEncoding e' t' (added ++ learned) := by
  obtain ⟨e₁, t₁, hrun₁, href⟩ := h.exists_block hg hle hanswer hσ hbad sh
  rw [hrun] at hrun₁
  obtain ⟨rfl, rfl⟩ : e' = e₁ ∧ t' = t₁ := by simpa using hrun₁
  have hsame := href.learns.same
  obtain ⟨added₁, hadd₁, hholds⟩ := href.learns.added
  obtain rfl : added = added₁ := List.append_cancel_right (hadd.symm.trans hadd₁)
  refine ⟨hsame.graph_eq.trans h.graph_eq, hsame.encoding_eq.trans h.encoding_eq,
    href.learns.inv, fun Ω σ' hc => ?_, fun Ω hΩ => ?_, fun h05 => ?_⟩
  · rw [List.forall_mem_append]
    exact ⟨hholds Ω σ' hc,
      h.learned_holds Ω σ' (hc.of_same hsame href.learns.minseps)⟩
  · obtain ⟨σ', hc⟩ := h.canonical Ω hΩ
    obtain ⟨σ'', -, hc'⟩ := href.learns.extend Ω σ' hc
    exact ⟨σ'', hc'⟩
  · exact href.separated (h.encoding_eq.symm ▸ h05) (h.separated h05)

/-- The invariant of the runs. -/
theorem Reached.runState (hg : g.Valid) (hle : minsepEncoding ≤ 5)
    (h : Reached g minsepEncoding sh e t learned) : RunState g minsepEncoding e t learned := by
  induction h with
  | start hnew => exact runState_new hg hnew
  | calls _ ht ih => exact ih.continues ht
  | refine _ hanswer hσ hbad hrun hadd ih => exact ih.refine hg hle hanswer hσ hbad hrun hadd

/-! ## Progress and soundness of the refinement -/

/-- A refinement step returns, adds a clause and excludes the values it started from;
the clauses learned hold for the values of every potential maximal clique; and `GetPmc`
ends whatever models the solver answers. -/
theorem refinement_progress (hg : g.Valid) (hle : minsepEncoding ≤ 5)
    (h : Reached g minsepEncoding sh e t learned) :
    (∀ σ, t.lastAnswer = some σ → t.Models σ →
      ¬g.toSimple.IsPotentialMaximalClique (vset (e.solutionOf σ)) →
      ∃ e' t' added, e.blockBadSolution sh (e.solutionOf σ) t = (some e', t') ∧
        t'.clauses = added ++ t.clauses ∧ added ≠ [] ∧
        ∀ σ', t'.Models σ' →
          ¬Values e.xVar e.cVar σ' (xValue e.xVar σ) (cValue e.cVar σ)) ∧
    (∀ Ω, g.toSimple.IsPotentialMaximalClique (vset Ω) → (∃ σ, Canonical e σ Ω) ∧
      ∀ σ, Canonical e σ Ω → ∀ clause ∈ learned, Holds σ clause) ∧
    ∀ (solver : Solver) as firstCall, solver.Sound → (∀ l ∈ as, l.Known t.numVars) →
      ∃ N, ∀ fuel ≥ N, ∃ r t', getPmc solver sh as firstCall fuel e t = (some r, t') := by
  have hstate := h.runState hg hle
  refine ⟨fun σ hanswer hσ hbad => ?_, fun Ω hΩ => ?_, fun solver as firstCall hsound has => ?_⟩
  · obtain ⟨e', t', hrun, href⟩ := hstate.exists_block hg hle hanswer hσ hbad sh
    obtain ⟨added, hadd, -⟩ := href.learns.added
    refine ⟨e', t', added, hrun, hadd, fun hnil => ?_, href.excludes⟩
    -- Without a new clause the model itself would be left.
    have hσ' : t'.Models σ := by
      rw [Trace.Models, hadd, hnil]
      exact hσ
    exact href.excludes σ hσ' ⟨fun _ => rfl, fun _ _ _ => rfl⟩
  · rw [isPotentialMaximalClique_iff] at hΩ
    exact ⟨hstate.canonical Ω hΩ, hstate.learned_holds Ω⟩
  · refine ⟨roundBound n, fun fuel hfuel => ?_⟩
    have hrun : wp (getPmc solver sh as firstCall fuel e) _ (fun _ => False) t := wp_getPmc hsound
      (hstate.graph_eq ▸ hg) (hstate.encoding_eq ▸ hle) hstate.inv has
      (lt_of_lt_of_le (remaining_lt_roundBound e t) hfuel)
    obtain ⟨r, t', heq, -⟩ := exists_of_wp hrun
    exact ⟨r, t', heq⟩

/-- Without the path lengths a model may select all vertices and connect every two of
them. -/
theorem exists_fullModel (hg : g.Valid) (h4 : minsepEncoding ≠ 4)
    (hnew : new g minsepEncoding [] = (some e, t)) {u v : Fin n} (hne : u ≠ v)
    (hno : g.hasEdge u v = false) :
    ∃ σ, t.Models σ ∧ ¬g.toSimple.IsPotentialMaximalClique (vset (e.solutionOf σ)) := by
  have hbasic : Basic g (fun _ => true) (fun _ _ => true) :=
    ⟨fun _ _ _ => rfl, fun _ _ _ _ => rfl, fun _ _ _ _ _ _ _ _ => rfl,
      fun _ _ _ _ _ => rfl, fun _ => Or.inl rfl⟩
  obtain ⟨σ, hσ, hv⟩ := post_of_wp (E := fun _ => True) (wp_new_basic hg h4) hnew _ _ hbasic
  have hmem : ∀ i, i ∈ e.solutionOf σ := fun i => mem_solutionOf.mpr (hv.x_eq i)
  refine ⟨σ, hσ, ?_⟩
  rw [isPotentialMaximalClique_iff, isPmc_iff_linked]
  rintro ⟨-, hlink⟩
  rcases hlink u (hmem u) v (hmem v) hne with hadj | ⟨D, hD, -⟩
  · exact Bool.false_ne_true (hno.symm.trans (hg.adj_iff.mp hadj))
  · obtain ⟨w, hw⟩ := hD.nonempty
    exact hD.notMem w hw (hmem w)

/-- On a cycle the solver may answer with all vertices, and the refinement excludes this. -/
theorem refinement_progress_cycle :
    ∃ g e t σ, fourCycle = some g ∧ new g 0 [] = (some e, t) ∧ t.Models σ ∧
      (∃ e' t' added, e.blockBadSolution Shuffle.none (e.solutionOf σ)
          (.solve [] true (some σ) :: t) = (some e', t') ∧
        t'.clauses = added ++ t.clauses ∧ added ≠ [] ∧
        ∀ σ', t'.Models σ' →
          ¬Values e.xVar e.cVar σ' (xValue e.xVar σ) (cValue e.cVar σ)) ∧
      ∀ (solver : Solver) as firstCall, solver.Sound → (∀ l ∈ as, l.Known t.numVars) →
        ∃ N, ∀ fuel ≥ N, ∃ r t', getPmc solver Shuffle.none as firstCall fuel e
          (.solve [] true (some σ) :: t) = (some r, t') := by
  obtain ⟨g, hcycle, hg, hno⟩ := exists_fourCycle
  obtain ⟨e, t, hnew⟩ := exists_new hg 0
  obtain ⟨σ, hσ, hbad⟩ := exists_fullModel hg (by decide) hnew (by decide) hno
  have hstart : Reached g 0 Shuffle.none e t [] := .start hnew
  have hcontinues : t.Continues (.solve [] true (some σ) :: t) :=
    ⟨(hstart.runState hg (Nat.zero_le 5)).inv.wellScoped, [_], rfl⟩
  obtain ⟨hprogress, -, hends⟩ := refinement_progress hg (Nat.zero_le 5) (hstart.calls hcontinues)
  exact ⟨g, e, t, σ, hcycle, hnew, hσ, hprogress σ rfl hσ hbad, hends⟩

/-! ## The separators learned -/

/-- The separator that a refinement step learns is a minimal bad one, a minimal separator
of the graph and without the ends of the pairs that it violates; with the encodings 0 and
5 it is a new one. -/
theorem learnedSep_minimal (hg : g.Valid) (hle : minsepEncoding ≤ 5)
    (h : Reached g minsepEncoding sh e t learned) (hσ : t.Models σ)
    (hbad : ¬g.toSimple.IsPotentialMaximalClique (vset (e.solutionOf σ))) :
    e.learnedSep σ ⊆ e.solutionOf σ ∧ MinimalBad g (cValue e.cVar σ) (e.learnedSep σ) ∧
    g.toSimple.IsMinimalSeparator (vset (e.learnedSep σ)) ∧
    (∀ v u, v ≠ u → cValue e.cVar σ v u = true →
      ¬g.toSimple.Linked (vset (e.learnedSep σ)) v u →
      v ∉ e.learnedSep σ ∧ u ∉ e.learnedSep σ) ∧
    (minsepEncoding = 0 ∨ minsepEncoding = 5 → ∀ p ∈ e.minsepVars, p.1 ≠ e.learnedSep σ) ∧
    (t.lastAnswer = some σ → ∃ e' t',
      e.blockBadSolution sh (e.solutionOf σ) t = (some e', t') ∧
      ∃ l, (e.learnedSep σ, l) ∈ e'.minsepVars ∧
        (minsepEncoding = 0 ∨ minsepEncoding = 5 →
          e'.minsepVars = (e.learnedSep σ, l) :: e.minsepVars)) := by
  have hstate := h.runState hg hle
  have hbad' : ¬e.graph.toSimple.IsPmc (vset (e.solutionOf σ)) := by
    rwa [hstate.graph_eq, ← isPotentialMaximalClique_iff]
  have hg' : e.graph.Valid := hstate.graph_eq ▸ hg
  obtain ⟨hmin, hsub⟩ := hstate.inv.minimalBad hg' hσ hbad'
  rw [hstate.graph_eq] at hmin
  have hnew : minsepEncoding = 0 ∨ minsepEncoding = 5 →
      ∀ p ∈ e.minsepVars, p.1 ≠ e.learnedSep σ := fun h05 =>
    hstate.inv.learnedSep_new hg' (hstate.separated h05) hσ hbad'
  refine ⟨fun v hv => mem_sort.mp (hsub.subset hv), hmin, hmin.isMinimalSeparator hg,
    fun v u hne hc hnot => hmin.notMem hg hne hc hnot, hnew, fun hanswer => ?_⟩
  obtain ⟨e', t', hrun, href⟩ := hstate.exists_block hg hle hanswer hσ hbad sh
  obtain ⟨l, hmem, hrec⟩ := href.recorded
  refine ⟨e', t', hrun, l, hmem, fun h05 => hrec.resolve_left ?_⟩
  rintro ⟨hold, -⟩
  exact hnew h05 _ hold rfl

/-- What the refinement learns when the solver answers with all vertices of a cycle. -/
theorem learnedSep_minimal_cycle :
    ∃ g e t σ, fourCycle = some g ∧ new g 0 [] = (some e, t) ∧ t.Models σ ∧
      e.learnedSep σ ⊆ e.solutionOf σ ∧
      g.toSimple.IsMinimalSeparator (vset (e.learnedSep σ)) := by
  obtain ⟨g, hcycle, hg, hno⟩ := exists_fourCycle
  obtain ⟨e, t, hnew⟩ := exists_new hg 0
  obtain ⟨σ, hσ, hbad⟩ := exists_fullModel hg (by decide) hnew (by decide) hno
  obtain ⟨hsub, -, hsep, -⟩ := learnedSep_minimal hg (Nat.zero_le 5)
    (@Reached.start _ _ _ Shuffle.none _ _ hnew) hσ hbad
  exact ⟨g, e, t, σ, hcycle, hnew, hσ, hsub, hsep⟩

/-! ## The path length encoding -/

/-- A solution of the path length encoding is a potential maximal clique. -/
theorem RunState.isPmc_of_path (hg : g.Valid) (h : RunState g 4 e t learned)
    (hσ : t.Models σ) : g.toSimple.IsPmc (vset (e.solutionOf σ)) := by
  have hpmc := (h.inv.basic σ hσ).isPmc (h.graph_eq.symm ▸ hg) (h.inv.path h.encoding_eq σ hσ)
  rwa [h.graph_eq, ← vset_solutionOf] at hpmc

/-- With the path length encoding `GetPmc` asks the solver once. -/
theorem RunState.getPmc_path (hg : g.Valid) (h : RunState g 4 e t learned)
    {solver : Solver} {as : List Lit} {firstCall : Bool} (hsound : solver.Sound)
    (has : ∀ l ∈ as, l.Known t.numVars) (sh : Shuffle) (fuel : ℕ) :
    getPmc solver sh as firstCall (fuel + 1) e t =
        (some ([], e), .solve as firstCall none :: t) ∨
      ∃ σ clause, getPmc solver sh as firstCall (fuel + 1) e t =
        (some (e.solutionOf σ, e), .addClause clause :: .solve as firstCall (some σ) :: t) := by
  have hrun : wp (getPmc solver sh as firstCall (fuel + 1) e)
      (fun r t' => (r = ([], e) ∧ t' = .solve as firstCall none :: t) ∨
        ∃ σ clause, r = (e.solutionOf σ, e) ∧
          t' = .addClause clause :: .solve as firstCall (some σ) :: t)
      (fun _ => False) t := by
    rw [getPmc, wp_bind]
    apply wp_solve has
    cases hans : solver.answer t as firstCall with
    | none =>
        rw [Option.isSome_none, if_neg Bool.false_ne_true, wp_pure]
        exact Or.inl ⟨rfl, rfl⟩
    | some σ =>
        obtain ⟨hσ, -⟩ := hsound t as firstCall σ hans
        have hsolve := Step.solve h.inv as firstCall (some σ)
        rw [Option.isSome_some, if_pos rfl, wp_bind]
        apply wp_readSolution (σ := σ) rfl hsolve.inv.lits.x_valid
        intro clause hvalid _
        have hnodup : (e.solutionOf σ).Nodup := (List.nodup_finRange n).filter _
        obtain ⟨b, hb, hiff⟩ := isPmc_spec (h.graph_eq.symm ▸ hg : e.graph.Valid) hnodup
        rw [h.graph_eq, isPotentialMaximalClique_iff] at hiff
        obtain rfl := hiff.mpr (h.isPmc_of_path hg hσ)
        change wp (ofOption (e.graph.isPmc (e.solutionOf σ)) >>= _) _ _ _
        rw [wp_bind, hb, wp_ofOption_some, if_pos rfl, wp_bind]
        apply wp_addClause hvalid
        rw [wp_pure]
        exact Or.inr ⟨σ, clause, rfl, rfl⟩
  obtain ⟨r, t', heq, ⟨rfl, rfl⟩ | ⟨σ, clause, rfl, rfl⟩⟩ := exists_of_wp hrun
  · exact Or.inl heq
  · exact Or.inr ⟨σ, clause, heq⟩

/-- The sets of true selection variables in the models of the path length encoding are
the potential maximal cliques; nothing is ever refined and `GetPmc` asks the solver
once. -/
theorem pathLength_exact (hg : g.Valid) :
    ∃ e t, new g 4 [] = (some e, t) ∧
      (∀ Ω, (∃ σ, t.Models σ ∧ solutionSet (xValue e.xVar σ) = Ω) ↔
        g.toSimple.IsPotentialMaximalClique Ω) ∧
      ∀ sh e' t' learned, Reached g 4 sh e' t' learned → learned = [] ∧
        ∀ (solver : Solver) as firstCall fuel, solver.Sound →
          (∀ l ∈ as, l.Known t'.numVars) →
          getPmc solver sh as firstCall (fuel + 1) e' t' =
              (some ([], e'), .solve as firstCall none :: t') ∨
            ∃ σ clause, getPmc solver sh as firstCall (fuel + 1) e' t' =
              (some (e'.solutionOf σ, e'),
                .addClause clause :: .solve as firstCall (some σ) :: t') := by
  obtain ⟨e, t, hnew⟩ := exists_new hg 4
  have hstate := runState_new hg hnew
  refine ⟨e, t, hnew, fun Ω => ?_, fun sh e' t' learned h => ⟨?_, ?_⟩⟩
  · rw [isPotentialMaximalClique_iff]
    constructor
    · rintro ⟨σ, hσ, rfl⟩
      rw [← vset_solutionOf]
      exact hstate.isPmc_of_path hg hσ
    · intro hΩ
      classical
      set l := (List.finRange n).filter fun v => decide (v ∈ Ω)
      have hl : vset l = Ω := by
        ext v
        simp [l]
      obtain ⟨-, -, -, -, hmodel⟩ := post_of_wp (E := fun _ => True) (wp_new hg 4) hnew
      obtain ⟨σ, hσ, hc⟩ := hmodel l (hl ▸ hΩ)
      refine ⟨σ, hσ, ?_⟩
      rw [← hl]
      ext v
      change xValue e.xVar σ v = true ↔ v ∈ l
      rw [xValue, hc.values.x_eq, decide_eq_true_iff]
  · have hle : (4 : ℕ) ≤ 5 := by omega
    induction h with
    | start _ => rfl
    | calls _ _ ih => exact ih
    | refine h _ hσ hbad _ _ _ =>
        rw [isPotentialMaximalClique_iff] at hbad
        exact absurd ((h.runState hg hle).isPmc_of_path hg hσ) hbad
  · intro solver as firstCall fuel hsound has
    exact (h.runState hg (by omega)).getPmc_path hg hsound has sh fuel

theorem pathLength_exact_cycle :
    ∃ g e t, fourCycle = some g ∧ new g 4 [] = (some e, t) ∧
      ∀ Ω, (∃ σ, t.Models σ ∧ solutionSet (xValue e.xVar σ) = Ω) ↔
        g.toSimple.IsPotentialMaximalClique Ω := by
  obtain ⟨g, hcycle, hg, -⟩ := exists_fourCycle
  obtain ⟨e, t, hnew, hiff, -⟩ := pathLength_exact hg
  exact ⟨g, e, t, hcycle, hnew, hiff⟩

end Runs

end Enumerator

end Triangulator
