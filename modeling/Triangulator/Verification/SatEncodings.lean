import Triangulator.Verification.SatPrograms

/-!
# The calls of the encodings and of the search

What each program calls is read off its text, part by part.
-/

namespace Triangulator

open AbortM

/-! ## The calls of the encodings -/

namespace Enumerator

variable {n : ℕ} {g : Graph n} {xVar : Fin n → Lit} {cVar : Fin n → Fin n → Lit}

theorem builds_connectivityVars : Builds Event.Quiet (connectivityVars g) :=
  Builds.foldlM (fun _ _ => Builds.foldlM (fun _ _ => (Builds.pure _).ite
    (Builds.ite (((Builds.pure _).ite (builds_newVar trivial)).bind fun _ => Builds.pure _)
      ((Builds.assert _).bind fun _ => Builds.pure _))) _ _) _ _

theorem builds_connectivityClauses : Builds Event.Quiet (connectivityClauses g xVar cVar) :=
  Builds.forM (fun _ => Builds.forM (fun _ => (Builds.pure _).ite
    (Builds.forM (fun _ => (builds_addClause trivial).when) _)) _) _

theorem builds_cliqueClauses : Builds Event.Quiet (cliqueClauses xVar cVar) :=
  Builds.forM (fun _ => Builds.forM (fun _ => builds_addClause trivial) _) _

theorem builds_fullComponentClauses {minsepEncoding : ℕ} :
    Builds Event.Quiet (fullComponentClauses minsepEncoding xVar cVar) :=
  Builds.forM (fun _ => (Builds.foldlM (fun _ _ => (Builds.pure _).ite
    ((builds_newVar trivial).bind fun _ => (builds_addClause trivial).bind fun _ =>
      (builds_addClause trivial).bind fun _ => (builds_addClause trivial).when.bind fun _ =>
      Builds.pure _)) _ _).bind fun _ => builds_addClause trivial) _

theorem builds_pathVars : Builds Event.Quiet (pathVars g xVar) :=
  Builds.foldlM (fun _ _ => Builds.foldlM (fun _ _ => Builds.foldlM (fun _ _ => (Builds.pure _).ite
    ((Builds.ite ((Builds.pure _).ite ((Builds.pure _).ite (builds_newVar trivial)))
        ((Builds.assert _).bind fun _ => Builds.pure _)).bind fun _ =>
      (builds_newVar trivial).bind fun _ => (builds_addClause trivial).bind fun _ =>
      (builds_addClause trivial).bind fun _ => Builds.pure _)) _ _) _ _) _ _

theorem builds_buildPathLengthEncoding :
    Builds Event.Quiet (buildPathLengthEncoding g xVar cVar) := by
  refine builds_pathVars.bind fun s => Builds.bind ?_ fun _ => Builds.bind ?_ fun _ => ?_
  · exact Builds.forM (fun _ => Builds.forM (fun _ => Builds.forM (fun _ => (Builds.pure _).ite
      ((builds_addClause trivial).when.bind fun _ => builds_addClause trivial)) _) _) _
  · exact Builds.forM (fun _ => Builds.forM (fun _ => Builds.forM (fun _ => (Builds.pure _).ite
      ((Builds.pure _).ite (builds_addClause trivial))) _) _) _
  · exact Builds.forM (fun _ => Builds.forM (fun _ => builds_addClause trivial) _) _

end Enumerator

namespace CardinalityNetworkBuilder

variable {b : CardinalityNetworkBuilder} {d1 d2 : Bool}

theorem builds_var (id : ℕ) : Builds Event.Quiet (b.var id) :=
  (Builds.foldlM (fun _ _ => (builds_newVar trivial).bind fun _ => Builds.pure _) _ _).bind
    fun _ => Builds.pure _

theorem builds_nextVar : Builds Event.Quiet b.nextVar :=
  (builds_var _).bind fun _ => Builds.pure _

theorem builds_addComparator {x y hi : Lit} {lo : Option Lit} :
    Builds Event.Quiet (addComparator d1 d2 x y hi lo) :=
  (((Builds.pure _).elim fun _ => builds_addClause trivial).bind fun _ =>
    (builds_addClause trivial).bind fun _ => builds_addClause trivial).when.bind fun _ =>
  ((builds_addClause trivial).bind fun _ =>
    ((Builds.pure _).elim fun _ => builds_addClause trivial).bind fun _ =>
    (Builds.pure _).elim fun _ => builds_addClause trivial).when

theorem builds_hMergeBlock {le i : ℕ} {s : (ℕ → Lit) × CardinalityNetworkBuilder} :
    Builds Event.Quiet (hMergeBlock d1 d2 le i s) :=
  (Builds.foldlM (fun _ _ => (builds_var _).bind fun _ => (builds_var _).bind fun _ =>
    builds_addComparator.bind fun _ => Builds.pure _) _ _).bind fun _ =>
  Builds.foldlM (fun _ _ => builds_nextVar.bind fun _ => Builds.pure _) _ _

theorem builds_hMerge {A B : List Lit} : Builds Event.Quiet (hMerge b A B d1 d2) :=
  (Builds.assert _).bind fun _ =>
  (Builds.foldlM (fun _ _ => builds_nextVar.bind fun _ => builds_nextVar.bind fun _ =>
    builds_addComparator.bind fun _ => Builds.pure _) _ _).bind fun _ =>
  (Builds.foldlM (fun _ _ => Builds.foldlM (fun _ _ => builds_hMergeBlock) _ _) _ _).bind fun _ =>
  Builds.pure _

theorem builds_sMergeBlock {le i : ℕ} {oc : Bool} {s : (ℕ → Lit) × CardinalityNetworkBuilder} :
    Builds Event.Quiet (sMergeBlock d1 d2 le i oc s) :=
  (Builds.foldlM (fun _ _ => Builds.ite
    ((builds_var _).bind fun _ => (builds_var _).bind fun _ => builds_addComparator.bind fun _ =>
      Builds.pure _)
    ((builds_var _).bind fun _ => builds_addComparator.bind fun _ => Builds.pure _)) _ _).bind
  fun _ => (Builds.foldlM (fun _ _ => builds_nextVar.bind fun _ => Builds.pure _) _ _).bind
  fun _ => (Builds.pure _).ite (builds_nextVar.bind fun _ => Builds.pure _)

theorem builds_sMerge {A B : List Lit} : Builds Event.Quiet (sMerge b A B d1 d2) :=
  (Builds.assert _).bind fun _ =>
  (Builds.foldlM (fun _ _ => builds_nextVar.bind fun _ => Builds.ite
    (builds_nextVar.bind fun _ => builds_addComparator.bind fun _ => Builds.pure _)
    (builds_addComparator.bind fun _ => Builds.pure _)) _ _).bind fun _ =>
  (Builds.foldlM (fun _ _ => Builds.foldlM (fun _ _ => builds_sMergeBlock.bind fun _ =>
    Builds.pure _) _ _) _ _).bind fun _ =>
  Builds.pure _

theorem builds_hSort {A : List Lit} {fuel l r : ℕ} :
    Builds Event.Quiet (hSort d1 d2 A fuel b l r) := by
  induction fuel generalizing b l r with
  | zero => exact Builds.abort
  | succ fuel ih =>
      exact (Builds.assert _).bind fun _ => (Builds.assert _).bind fun _ =>
        builds_hMerge.ite (ih.bind fun _ => ih.bind fun _ => builds_hMerge)

theorem builds_card {A : List Lit} {k fuel l r : ℕ} :
    Builds Event.Quiet (card d1 d2 A k fuel b l r) := by
  induction fuel generalizing b l r with
  | zero => exact Builds.abort
  | succ fuel ih =>
      exact (Builds.assert _).bind fun _ => builds_hSort.ite
        (ih.bind fun _ => ih.bind fun _ => (Builds.assert _).bind fun _ => builds_sMerge)

theorem builds_equalNetwork {input : List Lit} : Builds Event.Quiet (b.equalNetwork input) :=
  (Builds.assert _).bind fun _ =>
  (Builds.foldlM (fun _ _ => builds_nextVar.bind fun _ => (builds_addClause trivial).bind fun _ =>
    Builds.pure _) _ _).bind fun _ => (Builds.assert _).bind fun _ => builds_card.bind fun _ =>
  (Builds.assert _).bind fun _ =>
  (Builds.foldlM (fun _ _ => (builds_addClause trivial).bind fun _ => Builds.pure _) _ _).bind
  fun _ => Builds.pure _

end CardinalityNetworkBuilder

theorem TotalizerBuilder.builds_init {tb : TotalizerBuilder} {input : List Lit} :
    Builds Event.Quiet (tb.init input) :=
  (Builds.pure _).ite
    (Builds.foldlM (fun _ _ => (builds_newVar trivial).bind fun _ => Builds.pure _) _ _)

theorem SizedEnumerator.builds_cardinalityOutputs {cardEncoding : ℕ} {input : List Lit} :
    Builds Event.Quiet (cardinalityOutputs cardEncoding input) :=
  (CardinalityNetworkBuilder.builds_equalNetwork.bind fun _ => Builds.pure _).ite
    (TotalizerBuilder.builds_init.ite Builds.abort)

namespace TotalizerBuilder

variable {tb : TotalizerBuilder}

theorem builds_storeOutput {i x : ℕ} : Builds Event.Build (tb.storeOutput i x) :=
  ((Builds.assert _).bind fun _ => Builds.pure _).ite
    (Builds.bind ((Builds.pure _).ite ((builds_newVar trivial).bind fun _ =>
      (builds_freezeVar trivial).bind fun _ => Builds.pure _)) fun _ =>
        (Builds.assert _).bind fun _ => Builds.pure _)

theorem builds_outputClauses {L R T : List Lit} {x : ℕ} :
    Builds Event.Build (outputClauses L R T x) :=
  Builds.forM (fun _ => (builds_addClause trivial).when) _

theorem builds_buildNode {ti li ri x : ℕ} : Builds Event.Build (buildNode ti li ri x tb) :=
  (Builds.assert _).bind fun _ => builds_storeOutput.bind fun _ =>
    builds_outputClauses.bind fun _ => Builds.pure _

theorem builds_outputs {ti li ri : ℕ} (xs : List ℕ) :
    Builds Event.Build (xs.foldlM (fun tb x => buildNode ti li ri x tb) tb) :=
  Builds.foldlM (fun _ _ => builds_buildNode) xs tb

theorem builds_build {size fuel i l r : ℕ} : Builds Event.Build (build size fuel i l r tb) := by
  induction fuel generalizing tb i l r with
  | zero => exact Builds.abort
  | succ fuel ih =>
      exact (Builds.assert _).bind fun _ => (Builds.assert _).bind fun _ =>
        ((Builds.assert _).bind fun _ => Builds.pure _).ite
          (ih.bind fun _ => ih.bind fun _ => builds_outputs _)

theorem builds_buildToSize {size : ℕ} : Builds Event.Build (buildToSize size tb) :=
  (Builds.assert _).bind fun _ => (Builds.assert _).bind fun _ => (Builds.assert _).bind fun _ =>
    (Builds.pure _).ite (builds_build.bind fun _ => Builds.pure _)

end TotalizerBuilder

namespace Enumerator

variable {n : ℕ} {e : Enumerator n} {l : Lit} {components : List (List (Fin n))}
  {C : Fin n → Fin n → Bool} {A B : List (Fin n)}

/-! ## The calls of a refinement -/

theorem builds_pairClause {v u : Fin n} : Builds Event.Build (e.pairClause l v u) :=
  builds_addClause trivial

theorem builds_allPairs : Builds Event.Build (e.allPairs l A B) :=
  Builds.forM (fun _ => Builds.forM (fun _ => builds_pairClause) _) _

theorem builds_brokenPairs : Builds Event.Build (e.brokenPairs l C A B) :=
  Builds.forM (fun _ => Builds.forM (fun _ => builds_pairClause.when) _) _

theorem builds_pairsIfBroken : Builds Event.Build (e.pairsIfBroken l C A B) :=
  builds_allPairs.when

theorem builds_forPairs {body : List (Fin n) → List (Fin n) → SatM Unit}
    (h : ∀ A B, Builds Event.Build (body A B)) : Builds Event.Build (forPairs components body) :=
  Builds.forM (fun _ => Builds.forM (fun _ => h _ _) _) _

/-! ## The calls of the search -/

/-- The literals whose values the search needs can be read. -/
structure CanRead (reads : Bool → Lit → Prop) (e : Enumerator n) : Prop where
  x : ∀ v, reads true (e.xVar v)
  c : ∀ v u, reads true (e.cVar v u)

theorem canRead_all (e : Enumerator n) : e.CanRead fun _ _ => True :=
  ⟨fun _ => trivial, fun _ _ => trivial⟩

section Search

variable {P : Event → Prop} {reads : Bool → Lit → Prop} {b : Bool} {sh : Shuffle}

theorem uses_randomPairs (h : e.CanRead reads) :
    Uses Event.Build reads (fun _ e' => e'.CanRead reads) b
      fun _ => e.randomPairs sh l C components :=
  Client.Plays.bind (Builds.foldlM (fun _ _ => Builds.foldlM (fun _ _ =>
    ((Builds.pure _).elim fun _ => builds_pairClause).bind fun _ => Builds.pure _) _ _) _ _
      reads b)
    fun _ _ _ => .done ⟨h.x, h.c⟩

theorem uses_separatorClauses (h : e.CanRead reads) :
    Uses Event.Build reads (fun _ e' => e'.CanRead reads) b
      fun _ => e.separatorClauses sh l C components := by
  have hloop : ∀ {body : List (Fin n) → List (Fin n) → SatM Unit},
      (∀ A B, Builds Event.Build (body A B)) →
      Uses Event.Build reads (fun _ e' => CanRead reads e') b
        fun _ => forPairs components body >>= fun _ => pure e :=
    fun hbody => Client.Plays.bind (builds_forPairs hbody reads b) fun _ _ _ => .done h
  exact .ite (hloop fun _ _ => builds_allPairs) <|
    .ite (hloop fun _ _ => builds_brokenPairs) <|
    .ite (uses_randomPairs h) <|
    .ite (hloop fun _ _ => builds_pairsIfBroken) .abort

theorem uses_minsepVar {minsep : List (Fin n)} (h : e.CanRead reads) :
    Uses Event.Build reads (fun _ r => r.2.CanRead reads) b fun _ => e.minsepVar minsep := by
  simp only [minsepVar]
  cases (e.minsepVars.find? fun p => decide (p.1 = minsep)).map (·.2) with
  | some v => exact .done h
  | none =>
      refine Client.Plays.bind (builds_newVar trivial reads b) fun b v _ => ?_
      refine Client.Plays.bind ((builds_freezeVar trivial).when reads b) fun b _ _ => ?_
      refine Client.Plays.bind (builds_addClause trivial reads b) fun b _ _ => ?_
      refine Client.Plays.bind
        ((Builds.forM (fun _ => builds_addClause trivial) _).when reads b) fun b _ _ => ?_
      exact .done ⟨h.x, h.c⟩

theorem uses_solutionCValue {cVar : Fin n → Fin n → Lit} (h : ∀ v u, reads true (cVar v u)) :
    Uses P reads (fun b _ => b = true) true fun _ => solutionCValue cVar := by
  refine .foldlM rfl fun b cValue i _ hb => .foldlM hb fun b cValue ii _ hb => .ite (.done hb) ?_
  subst hb
  exact Client.Plays.bind (uses_solutionValue (Q := fun b _ => b = true) (h i ii) fun _ => rfl)
    fun b _ hb => .done hb

theorem uses_readSolution (h : e.CanRead reads) :
    Uses P reads (fun b _ => b = true) true fun _ => e.readSolution := by
  refine .foldlM rfl fun b s i _ hb => ?_
  subst hb
  exact Client.Plays.bind (uses_solutionValue (Q := fun b _ => b = true) (h.x i) fun _ => rfl)
    fun b _ hb => .ite (.done hb) (.done hb)

/-- A refinement reads the model before it adds a clause. -/
theorem uses_blockBadSolution {solution : List (Fin n)} (h : e.CanRead reads) :
    Uses Event.Build reads (fun _ e' => e'.CanRead reads) true
      fun _ => e.blockBadSolution sh solution := by
  refine Client.Plays.bind (uses_solutionCValue h.c) fun b C _ => ?_
  refine Client.Plays.bind (Builds.assert _ reads b) fun b _ _ => ?_
  refine Client.Plays.bind (Builds.assert _ reads b) fun b _ _ => ?_
  refine Client.Plays.bind (Builds.assert _ reads b) fun b _ _ => ?_
  exact Client.Plays.bind (uses_minsepVar h) fun b r hr => uses_separatorClauses hr

theorem uses_getPmc {as : List Lit} {firstCall : Bool} {fuel : ℕ} (h : e.CanRead reads)
    (hbuild : ∀ call : Event, call.Build → P call)
    (hsolve : ∀ answer, P (.solve as firstCall answer)) :
    Uses P reads (fun _ r => r.2.CanRead reads) b
      fun solver => getPmc solver sh as firstCall fuel e := by
  induction fuel generalizing e b with
  | zero => exact .abort
  | succ fuel ih =>
      refine Client.Plays.bind (uses_solve (Q := fun b sat => b = sat) hsolve fun _ => rfl)
        fun b sat hb => ?_
      subst hb
      cases b with
      | false => exact .done h
      | true =>
          refine Client.Plays.bind (uses_readSolution h) fun b s hb => ?_
          subst hb
          refine Client.Plays.bind (Q := fun b _ => b = true) (.ofOption fun _ => rfl)
            fun b pmc hb => ?_
          subst hb
          cases pmc with
          | true =>
              refine Client.Plays.bind (builds_addClause (hbuild _ trivial) reads _)
                fun b _ _ => ?_
              exact .done h
          | false =>
              exact Client.Plays.bind ((uses_blockBadSolution h).imp_calls hbuild)
                fun b e' he => ih he

end Search

end Enumerator

/-! ## The calls of the enumerators -/

/-- A variable or a constant, not the negation of a variable. -/
def Lit.Readable (l : Lit) : Prop :=
  ∀ v, l ≠ .var false v

/-- What the search reads: values of the model found last. -/
def ReadsModel (b : Bool) (l : Lit) : Prop :=
  b = true ∧ l.Readable

namespace Enumerator

variable {n : ℕ} {g : Graph n} {P : Event → Prop} {reads : Bool → Lit → Prop} {b : Bool}

theorem uses_selectionVars :
    Uses Event.Build reads (fun _ x => ∀ v, (x v).Readable) b fun _ => selectionVars n := by
  refine .foldlM (fun _ _ => Lit.noConfusion) fun b x i _ hx => ?_
  refine Client.Plays.bind (Q := fun _ l => l.Readable)
    (uses_newVar trivial fun v w heq => ?_) fun b l hl => ?_
  · exact Bool.noConfusion (Lit.var.inj heq).1
  refine Client.Plays.bind (builds_freezeVar trivial reads b) fun b _ _ => .done fun v => ?_
  rcases eq_or_ne v i with rfl | hv
  · rw [Function.update_self]
    exact hl
  · rw [Function.update_of_ne hv]
    exact hx v

theorem readable_setEntry {c : Fin n → Fin n → Lit} {i ii : Fin n} {l : Lit}
    (h : ∀ v u, (c v u).Readable) (hl : l.Readable) (v u : Fin n) :
    (setEntry c i ii l v u).Readable := by
  rw [setEntry]
  rcases eq_or_ne v i with rfl | hv
  · rw [Function.update_self]
    rcases eq_or_ne u ii with rfl | hu
    · rw [Function.update_self]
      exact hl
    · rw [Function.update_of_ne hu]
      exact h v u
  · rw [Function.update_of_ne hv]
    exact h v u

theorem uses_connectivityVars :
    Uses Event.Build reads (fun _ c => ∀ v u, (c v u).Readable) b
      fun _ => connectivityVars g := by
  refine .foldlM (fun _ _ _ => Lit.noConfusion) fun b c i _ hc => ?_
  refine .foldlM hc fun b c ii _ hc => .ite (.done hc) (.ite ?_ ?_)
  · refine Client.Plays.bind (Q := fun _ l => l.Readable)
      (.ite (.done fun _ => Lit.noConfusion) (uses_newVar trivial fun v w heq => ?_))
      fun b l hl => .done (readable_setEntry hc hl)
    exact Bool.noConfusion (Lit.var.inj heq).1
  · exact Client.Plays.bind (Builds.assert _ reads b) fun b _ _ =>
      .done (readable_setEntry hc (hc ii i))

theorem uses_new {minsepEncoding : ℕ} :
    Uses Event.Build reads (fun _ e => e.CanRead ReadsModel) b
      fun _ => new g minsepEncoding := by
  have hbasic : Uses Event.Build reads
      (fun _ s => (∀ v, (s.1 v).Readable) ∧ ∀ v u, (s.2 v u).Readable) b
      fun _ => buildBasicEncoding g minsepEncoding := by
    refine Client.Plays.bind uses_selectionVars fun b x hx => ?_
    refine Client.Plays.bind uses_connectivityVars fun b c hc => ?_
    refine Client.Plays.bind (builds_connectivityClauses.imp (fun _ => Event.Quiet.build) _ b)
      fun b _ _ => ?_
    refine Client.Plays.bind (builds_cliqueClauses.imp (fun _ => Event.Quiet.build) _ b)
      fun b _ _ => ?_
    exact Client.Plays.bind (builds_fullComponentClauses.imp (fun _ => Event.Quiet.build) _ b)
      fun b _ _ => .done ⟨hx, hc⟩
  refine Client.Plays.bind hbasic fun b s hs => ?_
  refine Client.Plays.bind
    ((builds_buildPathLengthEncoding.imp fun _ => Event.Quiet.build).when _ b) fun b _ _ => ?_
  exact .done ⟨fun v => ⟨rfl, hs.1 v⟩, fun v u => ⟨rfl, hs.2 v u⟩⟩

end Enumerator

/-- The assumptions of a `Solve` call are literals of the network, or their negations. -/
def Event.Asks (network : List Lit) : Event → Prop
  | .solve as _ _ => ∀ l ∈ as, ∃ y ∈ network, l = y ∨ l = -y
  | _ => True

theorem Event.Build.asks {call : Event} (h : call.Build) (network : List Lit) :
    call.Asks network := by
  cases call with
  | newVar => trivial
  | addClause clause => trivial
  | freezeVar l => trivial
  | solve as b answer => exact h.elim

namespace SizedEnumerator

variable {n : ℕ} {P : Event → Prop} {reads : Bool → Lit → Prop} {b : Bool} {sh : Shuffle}
  {fuel : ℕ} {e : SizedEnumerator n}

theorem asks_assumptions (k : ℕ) {b : Bool} {answer : Option (ℕ → Bool)} :
    Event.Asks e.cardinalityNetwork (.solve (e.assumptions k) b answer) := by
  intro l hl
  obtain ⟨p, hp, rfl⟩ := List.mem_map.mp hl
  refine ⟨p.1, (List.mem_zipIdx' hp).2 ▸ List.getElem_mem _, ?_⟩
  by_cases hk : p.2 < k
  · exact Or.inl (if_pos hk)
  · exact Or.inr (if_neg hk)

theorem uses_allPmcsLoop {as : List Lit} {rounds : ℕ} {firstCall : Bool}
    {pmcs : List (List (Fin n))} {e : Enumerator n} (h : e.CanRead reads)
    (hbuild : ∀ call : Event, call.Build → P call)
    (hsolve : ∀ b answer, P (.solve as b answer)) :
    Uses P reads (fun _ r => r.2.CanRead reads) b
      fun solver => allPmcsLoop solver sh as fuel rounds firstCall pmcs e := by
  induction rounds generalizing e b firstCall pmcs with
  | zero => exact .abort
  | succ rounds ih =>
      exact Client.Plays.bind (Enumerator.uses_getPmc h hbuild (hsolve firstCall))
        fun b r hr => .ite (.done hr) (ih hr)

/-- The enumerator keeps its literals and its network. -/
theorem uses_allPmcs {k : ℕ} {network : List Lit} (h : e.CanRead reads)
    (hnetwork : e.cardinalityNetwork = network) :
    Uses (Event.Asks network) reads
      (fun _ r => r.2.CanRead reads ∧ r.2.cardinalityNetwork = network) b
      fun solver => allPmcs solver sh fuel k e := by
  subst hnetwork
  have hbuild : Builds (Event.Asks e.cardinalityNetwork)
      (if e.cardEncoding = 1 then e.tb.buildToSize (k + 1) else pure e.tb) :=
    ((TotalizerBuilder.builds_buildToSize.imp fun _ hcall => hcall.asks _).ite (Builds.pure _))
  refine Client.Plays.bind (hbuild reads b) fun b tb _ => ?_
  refine Client.Plays.bind (uses_allPmcsLoop h (fun _ hcall => hcall.asks _)
    fun _ _ => asks_assumptions k) fun b r hr => ?_
  exact .done ⟨⟨hr.x, hr.c⟩, rfl⟩

/-- Calls of `AllPmcs` after those whose results are there. -/
def calls (solver : Solver) (sh : Shuffle) (fuel : ℕ) (ks : List ℕ)
    (s : List (List (List (Fin n))) × SizedEnumerator n) :
    SatM (List (List (List (Fin n))) × SizedEnumerator n) :=
  ks.foldlM
    (fun s k => do
      let r ← allPmcs solver sh fuel k s.2
      pure (s.1 ++ [r.1], r.2))
    s

theorem uses_calls {ks : List ℕ} {s : List (List (List (Fin n))) × SizedEnumerator n}
    (h : s.2.CanRead reads) :
    Uses (Event.Asks s.2.cardinalityNetwork) reads (fun _ _ => True) b
      fun solver => calls solver sh fuel ks s := by
  have hloop : Uses (Event.Asks s.2.cardinalityNetwork) reads
      (fun _ (r : List (List (List (Fin n))) × SizedEnumerator n) =>
        r.2.CanRead reads ∧ r.2.cardinalityNetwork = s.2.cardinalityNetwork) b
      fun solver => calls solver sh fuel ks s := by
    refine .foldlM ⟨h, rfl⟩ fun b r k _ hr => ?_
    exact Client.Plays.bind (uses_allPmcs hr.1 hr.2) fun b r hr => .done hr
  exact hloop.imp fun _ _ _ => trivial

theorem uses_withCardinality {e : Enumerator n} {cardEncoding size : ℕ} {input : List Lit}
    (h : e.CanRead reads) :
    Uses Event.Build reads (fun _ e' => e'.CanRead reads) b
      fun _ => withCardinality e cardEncoding input size := by
  refine Client.Plays.bind (builds_cardinalityOutputs.imp (fun _ => Event.Quiet.build) reads b)
    fun b r _ => ?_
  refine Client.Plays.bind (Builds.assert _ reads b) fun b _ _ => ?_
  refine Client.Plays.bind
    (Builds.forM (fun _ => builds_freezeVar trivial) _ reads b) fun b _ _ => ?_
  exact .done ⟨h.x, h.c⟩

end SizedEnumerator

section Runs

variable {n minsepEncoding cardEncoding K fuel : ℕ} {sh : Shuffle} {b : Bool}

theorem FixedSizeEnumerator.uses_new {g : Graph n} :
    Uses Event.Build ReadsModel (fun _ e => e.CanRead ReadsModel) b
      fun _ => new g minsepEncoding cardEncoding :=
  Client.Plays.bind Enumerator.uses_new fun _ _ he => SizedEnumerator.uses_withCardinality he

theorem FixedSizeHyperEnumerator.uses_new {h : HyperGraph n} :
    Uses Event.Build ReadsModel (fun _ e => e.CanRead ReadsModel) b
      fun _ => new h minsepEncoding cardEncoding := by
  refine Client.Plays.bind Enumerator.uses_new fun b e he => ?_
  refine Client.Plays.bind (Builds.foldlM (fun _ _ =>
    (builds_newVar trivial).bind fun _ => Builds.pure _) _ _ ReadsModel b) fun b edgeVars _ => ?_
  refine Client.Plays.bind
    (Builds.forM (fun _ => builds_addClause trivial) _ ReadsModel b) fun b _ _ => ?_
  exact SizedEnumerator.uses_withCardinality he

end Runs

end Triangulator
