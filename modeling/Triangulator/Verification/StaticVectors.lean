import Triangulator.Verification.McsMLoop

/-!
# Calls on static vectors

Every function with static vectors returns the same value on all of them, so a sequence of
calls returns what each call returns on its own.
-/

namespace Triangulator

variable {n : ℕ} {g : Graph n} {vs : List (Fin n)}

namespace Buffered

open Except

/-! ## Induced edges -/

theorem mark_initZero (is : List Bool) (vs : List (Fin n)) :
    Buffer.setEach (initZero false is n) vs true =
      .ok (Buffer.of (mark (fun _ => false) vs) []) := by
  rw [initZero_eq, Buffer.setEach_of]
  exact rfl

theorem edgesIn_yields (g : Graph n) (vs : List (Fin n)) (is : List Bool) :
    (edgesIn g vs is).Yields fun r => g.edgesIn vs = r.1 := by
  rw [edgesIn, mark_initZero]
  apply Yields.bind (P := fun edges => g.edgesIn vs = edges)
  · refine ⟨g.edgesIn vs, ?_, rfl⟩
    apply foldlM_flatMap
    intro edges v
    by_cases hlen : (g.adjList v).length ≤ vs.length
    · rw [if_pos hlen, if_pos hlen]
      apply foldlM_filter
      intro edges nv
      rw [Buffer.get_of]
      exact rfl
    · rw [if_neg hlen, if_neg hlen]
      rw [← List.foldlM_pure]
      exact foldlM_filter (fun _ _ => rfl) vs edges
  · rintro _ rfl
    exact Yields.pure rfl

theorem hyperEdgesIn_yields (h : HyperGraph n) (vs : List (Fin n)) (is : List Bool) :
    (hyperEdgesIn h vs is).Yields fun r => h.edgesIn vs = r.1 := by
  rw [hyperEdgesIn, mark_initZero]
  apply Yields.bind (P := fun edges => h.edgesIn vs = edges)
  · refine ⟨h.edgesIn vs, ?_, rfl⟩
    rw [HyperGraph.edgesIn, List.filter_map]
    apply foldlM_filter
    intro edges e
    have hedge := foldlM_filter (F := fun newEdge (v : Fin n) => (do
      let isIn ← Buffer.get (Buffer.of (mark (fun _ => false) vs) []) v
      pure (if isIn then newEdge ++ [v] else newEdge) : Except Fault (List (Fin n))))
      (p := mark (fun _ => false) vs) (f := id)
      (fun newEdge v => by rw [Buffer.get_of]; exact rfl) e []
    rw [List.map_id, List.nil_append] at hedge
    rw [hedge, Function.comp_apply]
    simp only [decide_eq_true_eq]
    exact rfl
  · rintro _ rfl
    exact Yields.pure rfl

/-! ## Atoms -/

/-- The vertex vector and the component of a depth-first search. -/
def Visits (t : (Fin n → Bool) × List (Fin n)) (s : List Bool × List (Fin n)) : Prop :=
  s = (Buffer.of t.1 [], t.2)

theorem dfs_yields (g : Graph n) (fuel : ℕ) (v : Fin n)
    {t : (Fin n → Bool) × List (Fin n)} {s : List Bool × List (Fin n)} (h : Visits t s) :
    (dfs g fuel v s).Yields (Visits (g.dfs fuel v t)) := by
  induction fuel generalizing v t s with
  | zero => exact Yields.pure h
  | succ fuel ih =>
      obtain rfl := h
      rw [dfs, Graph.dfs, Buffer.set_of]
      apply Yields.foldlM (R := Visits) (f := fun t nv => if t.1 nv then t else g.dfs fuel nv t)
      · rintro nv - t _ rfl
        rw [Buffer.get_of]
        by_cases hnv : t.1 nv = true
        · rw [if_pos hnv, hnv]
          exact Yields.pure rfl
        · rw [if_neg hnv, Bool.eq_false_of_not_eq_true hnv]
          exact ih nv rfl
      · exact rfl

theorem findComponentAndMark_yields (g : Graph n) (v : Fin n) (block : Fin n → Bool) :
    (findComponentAndMark g v (Buffer.of block [])).Yields
      (Visits (g.findComponentAndMark v block)) :=
  dfs_yields g n v rfl

theorem inducedGraph_simulates (g : Graph n) (vs : List (Fin n)) (is : List Bool) :
    Simulates (Mcs.inducedGraph g vs) (inducedGraph g vs is) fun a r => a = r.1 := by
  apply Simulates.of_yields (edgesIn_yields g vs is)
  rintro ⟨_, is'⟩ rfl
  apply (simulates_ofOption _).bind
  rintro a _ rfl
  exact Yields.pure rfl

/-- The vectors of `Atoms` hold a state of its loops. -/
structure EncodesAtoms (a : Mcs.AtomsState n) (s : AtomsVars) : Prop where
  rm : s.rm = Buffer.of a.rm []
  block : s.block = Buffer.of a.block []
  atoms : s.atoms = a.atoms

variable {a : Mcs.AtomsState n} {s : AtomsVars} {filled : Graph n} {out : Mcs.McsMOutput n}

theorem candClique_eq (rm : Fin n → Bool) (filled : Graph n) (x : Fin n) :
    candClique (Buffer.of rm []) filled x =
      .ok ((filled.adjList x).filter fun nx => !rm nx) := by
  rw [candClique, foldlM_filter (p := fun nx => !rm nx) (f := id), List.map_id,
    List.nil_append]
  intro clique nx
  rw [Buffer.get_of]
  cases hrm : rm nx with
  | true => rfl
  | false => rfl

/-- The atom below a candidate clique, before `x` is removed. -/
def cutState (g : Graph n) (a : Mcs.AtomsState n) (x : Fin n) (clique : List (Fin n)) :
    Option (Mcs.AtomsState n) := do
  let r := g.findComponentAndMark x (mark a.block clique)
  let atom ← Mcs.inducedGraph g (r.2 ++ clique)
  some
    { a with
      block := clique.foldl (fun b y => Function.update b y false) r.1
      atoms := a.atoms ++ [atom] }

theorem cutAtom_simulates (h : EncodesAtoms a s) (x : Fin n) (clique : List (Fin n)) :
    Simulates (cutState g a x clique) (cutAtom g s x clique) fun a' s' =>
      EncodesAtoms a' s' ∧ a'.rm = a.rm := by
  rw [cutAtom, h.block, Buffer.setEach_of]
  apply Simulates.of_yields (findComponentAndMark_yields g x _)
  rintro _ rfl
  rw [Buffer.setEach_of]
  apply (inducedGraph_simulates g _ s.is).bind
  rintro atom ⟨_, is⟩ rfl
  apply Yields.pure
  refine ⟨⟨h.rm, rfl, ?_⟩, rfl⟩
  dsimp only
  rw [h.atoms]

theorem atomsRound_eq (filled : Graph n) (a : Mcs.AtomsState n) (x : Fin n) (marked : Bool) :
    Mcs.atomsRound g filled a (x, marked) =
      ((if marked then
          if g.isClique ((filled.adjList x).filter fun nx => !a.rm nx) then
            cutState g a x ((filled.adjList x).filter fun nx => !a.rm nx)
          else some a
        else some a) >>= fun a' => some { a' with rm := Function.update a.rm x true }) := by
  rw [Mcs.atomsRound]
  cases marked with
  | false => rfl
  | true =>
      cases hclique : g.isClique ((filled.adjList x).filter fun nx => !a.rm nx) with
      | false => rfl
      | true =>
          simp only [Bool.and_self, if_true, cutState, Option.bind_eq_bind, Option.bind_assoc,
            Option.bind_some]

theorem cutMarked_simulates (h : EncodesAtoms a s) (x : Fin n) (marked : Bool) :
    Simulates
      (if marked then
        if g.isClique ((filled.adjList x).filter fun nx => !a.rm nx) then
          cutState g a x ((filled.adjList x).filter fun nx => !a.rm nx)
        else some a
      else some a)
      (cutMarked g filled s x marked) fun a' s' => EncodesAtoms a' s' ∧ a'.rm = a.rm := by
  rw [cutMarked]
  cases marked with
  | false => exact Yields.pure ⟨h, rfl⟩
  | true =>
      rw [h.rm, candClique_eq, if_pos rfl, if_pos rfl]
      change Simulates _ (if _ then _ else _) _
      by_cases hclique : g.isClique ((filled.adjList x).filter fun nx => !a.rm nx) = true
      · rw [if_pos hclique, if_pos hclique]
        exact cutAtom_simulates h x _
      · rw [if_neg hclique, if_neg hclique]
        exact Yields.pure ⟨h, rfl⟩

theorem atomsRound_simulates (h : EncodesAtoms a s) {it : ℕ} {x : Fin n} {marked : Bool}
    (hx : out.eliminationOrder[it]? = some x)
    (hmarked : out.isMaximalCliquePoint[it]? = some marked) :
    Simulates (Mcs.atomsRound g filled a (x, marked)) (atomsRound g filled out s it)
      EncodesAtoms := by
  have hremove : ∀ a' s', EncodesAtoms a' s' ∧ a'.rm = a.rm →
      Simulates (some { a' with rm := Function.update a.rm x true })
        (do
          let rm ← Buffer.set s'.rm x true
          pure { s' with rm := rm }) EncodesAtoms := by
    rintro a' s' ⟨hs', hrm⟩
    rw [hs'.rm, hrm, Buffer.set_of]
    apply Yields.pure
    exact ⟨rfl, hs'.block, hs'.atoms⟩
  rw [atomsRound_eq, atomsRound, Buffer.get, hx, Buffer.get, hmarked]
  exact (cutMarked_simulates h x marked).bind hremove

/-! ## The loops of `Atoms` -/

theorem restRound_simulates {t : (Fin n → Bool) × List Mcs.SomeGraph × ℕ}
    {s : AtomsVars × ℕ} (hblock : s.1.block = Buffer.of t.1 []) (hatoms : s.1.atoms = t.2.1)
    (hfound : s.2 = t.2.2) (x : Fin n) :
    Simulates (Mcs.restRound g t x) (restRound g s x) fun t s =>
      s.1.block = Buffer.of t.1 [] ∧ s.1.atoms = t.2.1 ∧ s.2 = t.2.2 := by
  rw [Mcs.restRound, restRound, hblock, Buffer.get_of]
  by_cases hx : t.1 x = true
  · rw [if_pos hx, hx]
    exact Yields.pure ⟨hblock, hatoms, hfound⟩
  · rw [if_neg hx, Bool.eq_false_of_not_eq_true hx]
    apply Simulates.of_yields (findComponentAndMark_yields g x t.1)
    rintro _ rfl
    apply (inducedGraph_simulates g _ s.1.is).bind
    rintro atom ⟨_, is⟩ rfl
    apply Yields.pure
    refine ⟨rfl, ?_, ?_⟩
    · dsimp only
      rw [hatoms]
    · dsimp only
      rw [hfound]

/-- The elimination order with its marks, by position. -/
theorem zip_eq_map {α β : Type} {l : List α} {l' : List β} (hl : l.length = n)
    (hl' : l'.length = n) :
    l.zip l' = (List.finRange n).map fun i =>
      (l.get (i.cast hl.symm), l'.get (i.cast hl'.symm)) := by
  apply List.ext_getElem
  · rw [List.length_map, List.length_finRange, List.length_zip]
    omega
  · intro i hi hi'
    rw [List.getElem_zip, List.getElem_map, List.getElem_finRange]
    exact rfl

theorem atoms_simulates (hlen : out.eliminationOrder.length = n)
    (hlen' : out.isMaximalCliquePoint.length = n) (b : AtomsStatics) (is : List Bool) :
    Simulates (Mcs.atoms g out) (atoms g out b is) fun a r => a = r.1 := by
  apply (simulates_ofOption (g.addEdges out.fillEdges)).bind
  rintro filled _ rfl
  rw [zip_eq_map hlen hlen', List.foldlM_map, ← List.map_coe_finRange_eq_range,
    List.foldlM_map]
  have hrounds := Simulates.foldlM (R := EncodesAtoms) (l := List.finRange n)
    (f := fun a (i : Fin n) => Mcs.atomsRound g filled a
      (out.eliminationOrder.get (i.cast hlen.symm),
        out.isMaximalCliquePoint.get (i.cast hlen'.symm)))
    (g := fun s (i : Fin n) => atomsRound g filled out s i)
    (a := ⟨fun _ => false, fun _ => false, []⟩)
    (b := ⟨⟨initZero false b.rm n, initZero false b.block n⟩, is, []⟩) ?_
    ⟨initZero_eq false _, initZero_eq false _, rfl⟩
  · apply hrounds.bind
    intro a s hs
    have hrest := Simulates.foldlM (l := List.finRange n) (f := Mcs.restRound g)
      (g := restRound g) (a := (a.block, a.atoms, 0)) (b := (s, 0))
      (R := fun t s => s.1.block = Buffer.of t.1 [] ∧ s.1.atoms = t.2.1 ∧ s.2 = t.2.2)
      (fun x _ t s hts => restRound_simulates hts.1 hts.2.1 hts.2.2 x)
      ⟨hs.block, hs.atoms, rfl⟩
    apply hrest.bind
    rintro t s' ⟨-, hatoms, hfound⟩
    rw [hfound]
    by_cases hone : t.2.2 = 1
    · rw [if_pos hone, if_pos hone]
      exact Yields.pure hatoms.symm
    · rw [if_neg hone, if_neg hone]
      exact rfl
  · intro i _ a s hs
    exact atomsRound_simulates hs (List.getElem?_eq_getElem _) (List.getElem?_eq_getElem _)

/-! ## Sequences of calls -/

/-- The arguments that the program passes: graphs built by the graph class, and results
of `McsM` of the size of the graph. -/
def Call.Valid : Call → Prop
  | .mcs g => g.Valid
  | .mcsM g => g.Valid
  | .atoms (n := n) _ out =>
      out.eliminationOrder.length = n ∧ out.isMaximalCliquePoint.length = n
  | .edgesIn _ _ => True
  | .hyperEdgesIn _ _ => True

/-- What a call returns, without any static vectors. -/
def Call.outcome : Call → Option Result
  | .mcs g => (Mcs.mcs g).map .order
  | .mcsM g => (Mcs.mcsM g).map .mcsMOutput
  | .atoms g out => (Mcs.atoms g out).map .atoms
  | .edgesIn g vs => some (.edges (g.edgesIn vs))
  | .hyperEdgesIn h vs => some (.hyperEdges (h.edgesIn vs))

theorem Call.run_simulates {c : Call} (hc : c.Valid) (b : Statics) :
    Simulates c.outcome (c.run b) fun a r => r.1 = a := by
  cases c with
  | mcs g =>
      obtain ⟨r, hr, horder, -⟩ := mcs_yields hc b.mcs
      rw [Call.outcome, Call.run, horder, hr]
      exact Yields.pure rfl
  | mcsM g =>
      obtain ⟨r, hr, hout⟩ := mcsM_yields hc b.mcsM
      rw [Call.outcome, Call.run, hout, hr]
      exact Yields.pure rfl
  | atoms g out =>
      rw [Call.outcome, Call.run, Option.map_eq_bind]
      apply (atoms_simulates hc.1 hc.2 b.atoms b.edgesIn).bind
      rintro _ r rfl
      exact Yields.pure rfl
  | edgesIn g vs =>
      obtain ⟨r, hr, hedges⟩ := edgesIn_yields g vs b.edgesIn
      rw [Call.outcome, Call.run, hedges, hr]
      exact Yields.pure rfl
  | hyperEdgesIn h vs =>
      obtain ⟨r, hr, hedges⟩ := hyperEdgesIn_yields h vs b.hyperEdgesIn
      rw [Call.outcome, Call.run, hedges, hr]
      exact Yields.pure rfl

theorem Call.run_map_fst {c : Call} (hc : c.Valid) (z : Statics) :
    (c.run z).map Prod.fst = Fault.ofOption c.outcome :=
  (Call.run_simulates hc z).map_eq fun _ _ heq => heq

/-- The first call of a sequence fails an assertion, or the sequence goes on with the rest. -/
theorem runAll_cons {c : Call} (hc : c.Valid) (calls : List Call) (b : Statics) :
    (c.outcome = none ∧ runAll (c :: calls) b = .error .assertion) ∨
      ∃ a b', c.outcome = some a ∧
        runAll (c :: calls) b = (runAll calls b').map fun results => a :: results := by
  have hrun := Call.run_simulates hc b
  rw [runAll]
  cases houtcome : c.outcome with
  | none =>
      rw [houtcome] at hrun
      have hfail : c.run b = .error .assertion := hrun
      rw [hfail]
      exact Or.inl ⟨rfl, rfl⟩
  | some a =>
      obtain ⟨r, hr, rfl⟩ := hrun.yields houtcome
      rw [hr]
      refine Or.inr ⟨r.1, r.2, rfl, ?_⟩
      change (runAll calls r.2 >>= fun results => _) = _
      cases runAll calls r.2 with
      | error fault => rfl
      | ok results => rfl

/-- Every call of a sequence returns what it returns on its own. -/
theorem runAll_eq {calls : List Call} (h : ∀ c ∈ calls, c.Valid) (b z : Statics) :
    runAll calls b = calls.mapM fun c => (c.run z).map Prod.fst := by
  induction calls generalizing b with
  | nil => rfl
  | cons c calls ih =>
      have hc := h c List.mem_cons_self
      rw [List.mapM_cons, Call.run_map_fst hc]
      obtain ⟨hnone, hrun⟩ | ⟨a, b', hsome, hrun⟩ := runAll_cons hc calls b
      · rw [hrun, hnone]
        exact rfl
      · rw [hrun, hsome, ih (fun c' hc' => h c' (List.mem_cons_of_mem c hc')) b']
        cases calls.mapM fun c => (c.run z).map Prod.fst with
        | error fault => rfl
        | ok results => rfl

/-- The only fault of a sequence is a failed assertion of one of its calls. -/
theorem runAll_fault {calls : List Call} (h : ∀ c ∈ calls, c.Valid) {b : Statics}
    {fault : Fault} (hrun : runAll calls b = .error fault) : fault = .assertion := by
  induction calls generalizing b with
  | nil => cases hrun
  | cons c calls ih =>
      obtain ⟨-, hfail⟩ | ⟨a, b', -, hrest⟩ :=
        runAll_cons (h c List.mem_cons_self) calls b
      · exact (Except.error.inj (hfail.symm.trans hrun)).symm
      · apply ih (fun c' hc' => h c' (List.mem_cons_of_mem c hc')) (b := b')
        rw [hrest] at hrun
        cases hcalls : runAll calls b' with
        | error fault' =>
            rw [hcalls] at hrun
            exact hrun
        | ok results =>
            rw [hcalls] at hrun
            cases hrun

/-- In a sequence of calls on the static vectors that the calls before have left, every
call returns what it returns on any other static vectors `z`, such as zeroed ones, and the
sequence ends early only at a failed assertion, never at an index beyond a vector. -/
theorem runAll_carries_nothing {calls : List Call} (h : ∀ c ∈ calls, c.Valid)
    (b z : Statics) :
    runAll calls b = calls.mapM (fun c => (c.run z).map Prod.fst) ∧
      ∀ fault, runAll calls b = .error fault → fault = .assertion :=
  ⟨runAll_eq h b z, fun _ hrun => runAll_fault h hrun⟩

/-- A square, then a path that is searched twice and cut into atoms. -/
theorem runAll_carries_nothing_path :
    ∃ g h, (Graph.empty 4).addEdges [(0, 1), (1, 2), (2, 3), (3, 0)] = some g ∧
      (Graph.empty 3).addEdges [(0, 1), (1, 2)] = some h ∧
      ∀ b z, runAll [.mcs g, .edgesIn g [3, 0], .mcs h, .mcsM h,
          .atoms h ⟨[], [2, 0, 1], [true, false, false]⟩] b =
        [Call.mcs g, .edgesIn g [3, 0], .mcs h, .mcsM h,
          .atoms h ⟨[], [2, 0, 1], [true, false, false]⟩].mapM
            fun c => (c.run z).map Prod.fst := by
  obtain ⟨g, hg, hg'⟩ := addEdges_spec (Graph.valid_empty 4)
    [(0, 1), (1, 2), (2, 3), (3, 0)] (by decide)
  obtain ⟨h, hh, hh'⟩ := addEdges_spec (Graph.valid_empty 3) [(0, 1), (1, 2)] (by decide)
  refine ⟨g, h, hg, hh, ?_⟩
  intro b z
  apply (runAll_carries_nothing (z := z) ?_ b).1
  intro c hc
  simp only [List.mem_cons, List.not_mem_nil, or_false] at hc
  obtain rfl | rfl | rfl | rfl | rfl := hc
  · exact hg'.valid
  · exact trivial
  · exact hh'.valid
  · exact hh'.valid
  · exact ⟨rfl, rfl⟩

end Buffered

end Triangulator
