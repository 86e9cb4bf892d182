import Triangulator.Verification.FixedSize
import Triangulator.Verification.TreewidthComb

/-!
# The solver on the cliques of growing size

When all potential maximal cliques with at most `k` vertices are listed, `Solve` finds a
triangulation exactly when the treewidth is less than `k`.  So the loop over the sizes ends
at the first size above the treewidth, which a graph that is not complete reaches before its
number of vertices.
-/

namespace Triangulator

open AbortM SimpleGraph SizedEnumerator Enumerator FixedSizeEnumerator

variable {n k : ℕ} {g : Graph n} {apmcs ls : List (List (Fin n))}

/-! ## The list of the small cliques -/

/-- The list holds the potential maximal cliques with at most `k` vertices. -/
structure ListsSmall (g : Graph n) (k : ℕ) (apmcs : List (List (Fin n))) : Prop where
  nodup : ∀ l ∈ apmcs, l.Nodup
  isPmc : ∀ l ∈ apmcs, g.toSimple.IsPmc (vset l)
  length_le : ∀ l ∈ apmcs, l.length ≤ k
  complete : ∀ Ω, g.toSimple.IsPmc Ω → Ω.ncard ≤ k → ∃ l ∈ apmcs, vset l = Ω

/-- A clique of one size has that many entries. -/
theorem length_of_mem (hnodup : ∀ l ∈ ls, l.Nodup)
    (hls : ∀ Ω, (g.toSimple.IsPmc Ω ∧ Ω.ncard = k) ↔ ∃ l ∈ ls, vset l = Ω) :
    ∀ l ∈ ls, l.length = k := by
  intro l hl
  rw [← ncard_vset (hnodup l hl)]
  exact ((hls _).mpr ⟨l, hl, rfl⟩).2

theorem length_of_lists (h : Lists {Ω | g.toSimple.IsPmc Ω ∧ Ω.ncard = k} ls) :
    ∀ l ∈ ls, l.length = k :=
  length_of_mem (fun l hl => (h.sorted l hl).imp ne_of_lt) h.mem_iff

namespace ListsSmall

theorem zero (hn : 0 < n) (g : Graph n) : ListsSmall g 0 [] := by
  have : Nonempty (Fin n) := ⟨⟨0, hn⟩⟩
  refine ⟨by simp, by simp, by simp, ?_⟩
  intro Ω hΩ hcard
  rw [Nat.le_zero, Set.ncard_eq_zero] at hcard
  exact absurd hcard hΩ.nonempty.ne_empty

/-- The cliques of the next size. -/
theorem append_of_mem (h : ListsSmall g k apmcs) (hnodup : ∀ l ∈ ls, l.Nodup)
    (hls : ∀ Ω, (g.toSimple.IsPmc Ω ∧ Ω.ncard = k + 1) ↔ ∃ l ∈ ls, vset l = Ω) :
    ListsSmall g (k + 1) (apmcs ++ ls) := by
  refine ⟨?_, ?_, ?_, ?_⟩
  · intro l hl
    rcases List.mem_append.mp hl with hl | hl
    · exact h.nodup l hl
    · exact hnodup l hl
  · intro l hl
    rcases List.mem_append.mp hl with hl | hl
    · exact h.isPmc l hl
    · exact ((hls _).mpr ⟨l, hl, rfl⟩).1
  · intro l hl
    rcases List.mem_append.mp hl with hl | hl
    · exact Nat.le_succ_of_le (h.length_le l hl)
    · exact (length_of_mem hnodup hls l hl).le
  · intro Ω hΩ hcard
    rcases Nat.le_succ_iff.mp hcard with hcard | hcard
    · obtain ⟨l, hl, heq⟩ := h.complete Ω hΩ hcard
      exact ⟨l, List.mem_append_left ls hl, heq⟩
    · obtain ⟨l, hl, heq⟩ := (hls Ω).mp ⟨hΩ, hcard⟩
      exact ⟨l, List.mem_append_right apmcs hl, heq⟩

theorem append (h : ListsSmall g k apmcs)
    (hls : Lists {Ω | g.toSimple.IsPmc Ω ∧ Ω.ncard = k + 1} ls) :
    ListsSmall g (k + 1) (apmcs ++ ls) :=
  h.append_of_mem (fun l hl => (hls.sorted l hl).imp ne_of_lt) hls.mem_iff

variable (h : ListsSmall g k apmcs)
include h

theorem isPmcList : BtAlgorithm.IsPmcList g apmcs :=
  fun l hl => ⟨h.nodup l hl, isPotentialMaximalClique_iff.mpr (h.isPmc l hl)⟩

/-- The listed triangulations are those without larger cliques. -/
theorem isListed_iff {H : SimpleGraph (Fin n)} (hH : g.toSimple.IsMinimalTriangulation H) :
    BtAlgorithm.IsListed g apmcs H ↔ H.cliqueNum ≤ k := by
  rw [cliqueNum_le_iff]
  constructor
  · intro hlisted Q hQ
    obtain ⟨M, hQM, hM⟩ := hQ.exists_maximal
    obtain ⟨l, hl, rfl⟩ := hlisted.listed M hM
    apply (Set.ncard_le_ncard hQM).trans
    rw [ncard_vset (h.nodup l hl)]
    exact h.length_le l hl
  · intro hk
    exact ⟨hH, fun Q hQ => h.complete Q (hH.isPmc hQ) (hk Q hQ.1)⟩

/-- Above the treewidth `Solve` succeeds. -/
theorem solve_of_le (ks : KeySort) (hn : 0 < n) (hg : g.Valid)
    (hk : g.toSimple.treewidth + 1 ≤ k) :
    ∃ solB, BtAlgorithm.solve ks g apmcs = some solB ∧
      IsOptimal (wholeInstance g) (treewidthSolution solB) := by
  obtain ⟨H, hH, hnum⟩ := treewidth_le_iff_minimal.mp (le_refl g.toSimple.treewidth)
  have hlisted := (h.isListed_iff hH).mpr (hnum.trans hk)
  obtain ⟨c, F, hsolve, hc, hF, hchordal, hwidth⟩ :=
    solve_treewidth ks hn hg h.isPmcList hlisted hnum
  exact ⟨(c, F), hsolve, ⟨F, rfl, hF, hchordal, hwidth⟩, hc⟩

/-- Up to the treewidth it does not. -/
theorem solve_of_lt (ks : KeySort) (hn : 0 < n) (hg : g.Valid)
    (hk : k ≤ g.toSimple.treewidth) : BtAlgorithm.solve ks g apmcs = some (-1, []) := by
  obtain ⟨c, F, hsolve, ⟨rfl, rfl, -⟩ | ⟨-, hbest⟩⟩ :=
    BtAlgorithm.solve_cases ks hn hg h.isPmcList
  · exact hsolve
  · have hH := hbest.isListed
    have : Nonempty (Fin n) := ⟨⟨0, hn⟩⟩
    have hnum := (h.isListed_iff hH.minimal).mp hH
    rw [hH.minimal.chordal.cliqueNum_eq] at hnum
    have hle := treewidth_mono hH.minimal.le
    omega

end ListsSmall

/-- The results of the first calls together. -/
theorem listsSmall_take {lists : List (List (List (Fin n)))} {K : ℕ} (hn : 0 < n)
    (hlen : lists.length = K)
    (h : ∀ k < K, Lists {Ω | g.toSimple.IsPmc Ω ∧ Ω.ncard = k + 1} (lists.getD k []))
    (hk : k ≤ K) : ListsSmall g k (lists.take k).flatten := by
  induction k with
  | zero => exact ListsSmall.zero hn g
  | succ k ih =>
      have hlt : k < lists.length := hlen ▸ hk
      have hnext := h k hk
      rw [List.getD_eq_getElem _ _ hlt] at hnext
      rw [List.take_succ_eq_append_getElem hlt, List.flatten_append, List.flatten_singleton]
      exact (ih (Nat.le_of_succ_le hk)).append hnext

/-! ## The loop over the sizes -/

section Loop

variable {ks : KeySort} {solver : Solver} {sh : Shuffle} {fuel m : ℕ} {sizes : List ℕ}
  {input : List Lit} {e : SizedEnumerator n} {t : Trace} {E : Trace → Prop}
  {Q : Option TreewidthSolution → Trace → Prop}

/-- The state before the size `k + 1` is tried. -/
structure SizesTried (g : Graph n) (input : List Lit) (k : ℕ) (apmcs : List (List (Fin n)))
    (e : SizedEnumerator n) (t : Trace) : Prop where
  runInv : RunInv (fun Ω j => Ω.ncard = j) g input e t k
  small : ListsSmall g k apmcs
  le : k ≤ g.toSimple.treewidth

/-- One round. -/
theorem wp_sizeRound (hsolver : solver.Exact) (hn : 0 < n) (hg : g.Valid)
    (hfuel : roundBound n ≤ fuel) (hlen : input.length = n)
    (h1 : e.cardEncoding = 1 → k + 1 < n) (h : SizesTried g input k apmcs e t)
    (hfound : k = g.toSimple.treewidth → ∀ sol t', IsOptimal (wholeInstance g) sol →
      Q (some sol) t')
    (hnext : ∀ apmcs' e' t', SizesTried g input (k + 1) apmcs' e' t' →
      e'.cardEncoding = e.cardEncoding →
      wp (treewidthSatLoop ks solver sh fuel g sizes apmcs' e') Q E t') :
    wp (treewidthSatLoop ks solver sh fuel g ((k + 1) :: sizes) apmcs e) Q E t := by
  have : Nonempty (Fin n) := ⟨⟨0, hn⟩⟩
  have hkn : k + 1 ≤ n := by
    have hlt := treewidth_lt_card g.toSimple
    rw [Nat.card_fin] at hlt
    exact lt_of_le_of_lt h.le hlt
  rw [treewidthSatLoop, wp_bind]
  apply wp_imp (wp_allPmcs hsolver hn hg hfuel (hkn.trans hlen.ge)
    (fun he => (h1 he).trans_eq hlen.symm) h.runInv)
  rintro ⟨ls, e'⟩ t' ⟨hinv, hcard, hls⟩
  simp only [isLeast_ncard_iff] at hls
  have hsmall := h.small.append hls
  rw [wp_bind]
  apply wp_assert_of
  · rw [List.all_eq_true]
    exact fun l hl => decide_eq_true (length_of_lists hls l hl)
  dsimp only
  rw [wp_bind]
  rcases Nat.lt_or_eq_of_le h.le with hlt | heq
  · rw [hsmall.solve_of_lt ks hn hg hlt, wp_ofOption_some]
    have hneg : ¬(0 : ℤ) ≤ (treewidthSolution (n := n) (-1, [])).treewidth :=
      Int.negSucc_not_nonneg 0 |>.mp
    rw [if_neg hneg]
    exact hnext _ _ _ ⟨hinv, hsmall, hlt⟩ hcard
  · obtain ⟨solB, hsolve, hsol⟩ := hsmall.solve_of_le ks hn hg (Nat.succ_le_succ heq.ge)
    have htw : (treewidthSolution solB).treewidth = (k : ℤ) := by
      rw [heq]
      exact hsol.2
    rw [hsolve, wp_ofOption_some, if_pos (htw ▸ Int.natCast_nonneg k), wp_bind]
    apply wp_assert_of
    · rw [htw]
      simp
    rw [wp_pure]
    exact hfound heq _ _ hsol

/-- The loop ends with a solution unless the totalizer is too small for it. -/
theorem wp_treewidthSatLoop (hsolver : solver.Exact) (hn : 0 < n) (hg : g.Valid)
    (hfuel : roundBound n ≤ fuel) (hlen : input.length = n) (hm : k + m = n)
    (h1 : e.cardEncoding = 1 → g.toSimple.treewidth + 1 < n)
    (h : SizesTried g input k apmcs e t) :
    wp (treewidthSatLoop ks solver sh fuel g (List.range' (k + 1) m) apmcs e)
      (fun r _ => ∃ sol, r = some sol ∧ IsOptimal (wholeInstance g) sol) E t := by
  induction m generalizing k apmcs e t with
  | zero =>
      have : Nonempty (Fin n) := ⟨⟨0, hn⟩⟩
      have hlt := treewidth_lt_card g.toSimple
      rw [Nat.card_fin] at hlt
      exact absurd (hm.symm.le.trans h.le) hlt.not_ge
  | succ m ih =>
      rw [List.range'_succ]
      apply wp_sizeRound hsolver hn hg hfuel hlen
        (fun he => lt_of_le_of_lt (Nat.succ_le_succ h.le) (h1 he)) h
      · exact fun _ sol _ hsol => ⟨sol, rfl, hsol⟩
      · intro apmcs' e' t' h' hcard
        exact ih (by omega) (fun he => h1 (hcard ▸ he)) h'

/-- With the totalizer the loop does not get through the last size. -/
theorem wp_treewidthSatLoop_full (hsolver : solver.Exact) (hn : 0 < n) (hg : g.Valid)
    (hfuel : roundBound n ≤ fuel) (hlen : input.length = n) (hm : k + m = n)
    (htw : g.toSimple.treewidth + 1 = n) (he : e.cardEncoding = 1)
    (h : SizesTried g input k apmcs e t) :
    wp (treewidthSatLoop ks solver sh fuel g (List.range' (k + 1) m) apmcs e)
      (fun _ _ => False) (fun _ => True) t := by
  induction m generalizing k apmcs e t with
  | zero =>
      have hle := h.le
      omega
  | succ m ih =>
      rw [List.range'_succ]
      rcases Nat.eq_zero_or_pos m with rfl | hm'
      · -- `BuildToSize` is asked for more outputs than there are.
        obtain ⟨-, hinput, -⟩ := h.runInv.card.totalizer he
        have hlarge : ¬k + 1 + 1 ≤ e.tb.input.length := by
          rw [hinput, hlen]
          omega
        rw [treewidthSatLoop, wp_bind, allPmcs, wp_bind, if_pos he, TotalizerBuilder.buildToSize,
          wp_bind, wp_assert, if_neg (by simpa using hlarge)]
        trivial
      · -- The treewidth is the number of the last size, so no smaller size succeeds.
        apply wp_sizeRound hsolver hn hg hfuel hlen (fun _ => by omega) h
        · intro heq
          omega
        · intro apmcs' e' t' h' hcard
          exact ih (by omega) (hcard.trans he) h'

variable {minsepEncoding cardEncoding : ℕ}

/-- The state after the constructor. -/
theorem wp_newSizes (hg : g.Valid) (hn : 2 ≤ n) (hms : minsepEncoding ≤ 5)
    (hce : cardEncoding ≤ 1) :
    wp (FixedSizeEnumerator.new g minsepEncoding cardEncoding)
      (fun e t => ∃ input, input.length = n ∧ e.cardEncoding = cardEncoding ∧
        SizesTried g input 0 [] e t) E [] := by
  apply wp_imp (wp_new hg hn hms hce)
  rintro e t ⟨input, hlen, hcard, hinv⟩
  exact ⟨input, hlen, hcard, hinv, ListsSmall.zero (Nat.zero_lt_of_lt hn) g, Nat.zero_le _⟩

/-- An instance is solved with least width unless the totalizer is too small for it. -/
theorem treewidthSatInstance_spec (ks : KeySort) (hsolver : solver.Exact) (sh : Shuffle)
    (hg : g.Valid) (hn : 2 ≤ n) (hms : minsepEncoding ≤ 5) (hce : cardEncoding ≤ 1)
    (h1 : cardEncoding = 1 → g.toSimple.treewidth + 1 < n) (hfuel : roundBound n ≤ fuel) :
    ∃ sol, (treewidthSatInstance ks solver sh fuel minsepEncoding cardEncoding g []).1 =
      some (some sol) ∧ IsOptimal (wholeInstance g) sol := by
  have hwp : wp (treewidthSatInstance ks solver sh fuel minsepEncoding cardEncoding g)
      (fun r _ => ∃ sol, r = some sol ∧ IsOptimal (wholeInstance g) sol) (fun _ => False) [] := by
    rw [treewidthSatInstance, wp_bind]
    apply wp_imp (wp_newSizes hg hn hms hce)
    rintro e t ⟨input, hlen, hcard, hstart⟩
    apply wp_treewidthSatLoop hsolver (Nat.zero_lt_of_lt hn) hg hfuel hlen (Nat.zero_add n) _
      hstart
    exact fun he => h1 (hcard.symm.trans he)
  obtain ⟨r, t, hrun, sol, rfl, hsol⟩ := exists_of_wp hwp
  exact ⟨sol, congrArg Prod.fst hrun, hsol⟩

/-- With the totalizer no instance of the largest treewidth is solved. -/
theorem treewidthSatInstance_full (ks : KeySort) (hsolver : solver.Exact) (sh : Shuffle)
    (hg : g.Valid) (hn : 2 ≤ n) (hms : minsepEncoding ≤ 5)
    (htw : g.toSimple.treewidth + 1 = n) (hfuel : roundBound n ≤ fuel) :
    (treewidthSatInstance ks solver sh fuel minsepEncoding 1 g []).1 = none := by
  have hwp : wp (treewidthSatInstance ks solver sh fuel minsepEncoding 1 g)
      (fun _ _ => False) (fun _ => True) [] := by
    rw [treewidthSatInstance, wp_bind]
    apply wp_imp (wp_newSizes hg hn hms le_rfl)
    rintro e t ⟨input, hlen, hcard, hstart⟩
    exact wp_treewidthSatLoop_full hsolver (Nat.zero_lt_of_lt hn) hg hfuel hlen (Nat.zero_add n)
      htw hcard hstart
  rw [wp] at hwp
  cases hrun : (treewidthSatInstance ks solver sh fuel minsepEncoding 1 g []).1 with
  | none => rfl
  | some r =>
      rw [hrun] at hwp
      exact hwp.elim

end Loop

/-! ## The whole run -/

section Run

variable {solver : Solver} {minsepEncoding cardEncoding : ℕ}

/-- An instance of the preprocessing is not complete. -/
theorem IsCore.treewidth_lt {G : SimpleGraph (Fin n)} (h : IsCore G) :
    G.treewidth + 1 < n := by
  have hne : G ≠ ⊤ := by
    rintro rfl
    exact h.not_chordal isChordal_top
  have hlt := treewidth_lt_of_ne_top hne
  rwa [Nat.card_fin] at hlt

/-- The solutions that a loop over the instances pushes. -/
theorem exists_reduceOption {α β : Type*} {r : α → β → Prop} {l : List α}
    {os : List (Option β)} (h : List.Forall₂ (fun a o => ∃ b, o = some b ∧ r a b) l os) :
    List.Forall₂ r l os.reduceOption := by
  induction h with
  | nil => exact List.Forall₂.nil
  | cons hab _ ih =>
      obtain ⟨b, rfl, hb⟩ := hab
      rw [List.reduceOption_cons_of_some]
      exact List.Forall₂.cons hb ih

/-- The instances after `Preprocess(true)` and enough fuel for all of them. -/
theorem exists_fuel (hg : g.Valid) (hid : g.HasIdentityMap) :
    ∃ depth s, (∀ fuel, depth ≤ fuel → preprocess fuel g true = some s) ∧
      (∀ inst ∈ s.instances, inst.graph.2.Valid ∧ IsCore inst.graph.2.toSimple ∧
        roundBound inst.graph.1 ≤ depth) ∧
      ∀ sols, List.Forall₂ IsOptimal s.instances sols →
        ∃ sol, mapBack g s sols = some sol ∧ sol.treewidth = g.toSimple.treewidth := by
  obtain ⟨depth, s, hrun, ⟨I, hI⟩, hback⟩ := exists_mapBack_optimal hg hid
  set b := (s.instances.map fun inst => roundBound inst.graph.1).sum
  have hb : ∀ inst ∈ s.instances, roundBound inst.graph.1 ≤ b :=
    fun inst hinst => List.le_sum_of_mem (List.mem_map_of_mem hinst)
  refine ⟨max depth b, s, fun fuel hfuel => hrun fuel ((le_max_left _ _).trans hfuel), ?_, hback⟩
  intro inst hinst
  obtain ⟨Q, -, hQ⟩ := exists_of_forall₂ hI hinst
  obtain ⟨φ, hφ, -⟩ := hQ.embedding
  exact ⟨hφ.valid, hQ.core, (hb inst hinst).trans (le_max_right _ _)⟩

/-- `TreewidthSat` with preprocessing returns the treewidth. -/
theorem treewidthSat_of_instances (ks : KeySort) (hsolver : solver.Exact) (sh : Shuffle)
    (hms : minsepEncoding ≤ 5) (hce : cardEncoding ≤ 1) {fuel : ℕ} {s : PreprocessorState}
    (hrun : preprocess fuel g true = some s)
    (hinsts : ∀ inst ∈ s.instances, inst.graph.2.Valid ∧ IsCore inst.graph.2.toSimple ∧
      roundBound inst.graph.1 ≤ fuel)
    (hback : ∀ sols, List.Forall₂ IsOptimal s.instances sols →
      ∃ sol, mapBack g s sols = some sol ∧ sol.treewidth = g.toSimple.treewidth) :
    treewidthSat ks solver sh fuel g minsepEncoding cardEncoding true =
      some (g.toSimple.treewidth : ℤ) := by
  have hsome : ∀ inst ∈ s.instances, ∃ o,
      (treewidthSatInstance ks solver sh fuel minsepEncoding cardEncoding inst.graph.2 []).1 =
        some o ∧ ∃ sol, o = some sol ∧ IsOptimal inst sol := by
    intro inst hinst
    obtain ⟨hg, hcore, hfuel⟩ := hinsts inst hinst
    have hlt := hcore.treewidth_lt
    obtain ⟨sol, hsol, hopt⟩ := treewidthSatInstance_spec ks hsolver sh hg
      (Nat.lt_of_le_of_lt (Nat.le_add_left 1 _) hlt) hms hce (fun _ => hlt) hfuel
    exact ⟨some sol, hsol, sol, rfl, hopt⟩
  obtain ⟨os, hos, hall⟩ := exists_mapM hsome
  obtain ⟨sol, hmap, htw⟩ := hback _ (exists_reduceOption hall)
  rw [treewidthSat, hrun, Option.bind_eq_bind, Option.bind_some, hos, Option.bind_eq_bind,
    Option.bind_some, hmap, Option.bind_eq_bind, Option.bind_some, htw]
  rfl

/-- With preprocessing `TreewidthSat` returns the treewidth, and on every instance the first
size at which `Solve` succeeds on the cliques so far is the treewidth plus one.  `Solve` reads
`IdOf` of a component that no clique so far produced as a missing child. -/
theorem treewidthSat_exact (ks : KeySort) (hsolver : solver.Exact) (sh : Shuffle)
    {input : List Text} (h : Io.readGraph input = some ⟨n, g⟩) (hms : minsepEncoding ≤ 5)
    (hce : cardEncoding ≤ 1) :
    ∃ depth s, ∀ fuel, depth ≤ fuel → preprocess fuel g true = some s ∧
      treewidthSat ks solver sh fuel g minsepEncoding cardEncoding true =
        some (g.toSimple.treewidth : ℤ) ∧
      ∀ inst ∈ s.instances, ∃ lists t,
        FixedSizeEnumerator.run inst.graph.2 minsepEncoding cardEncoding solver sh fuel
          (inst.graph.2.toSimple.treewidth + 1) [] = (some lists, t) ∧
        ∀ k ≤ inst.graph.2.toSimple.treewidth, ∃ c F,
          BtAlgorithm.solve ks inst.graph.2 (lists.take (k + 1)).flatten = some (c, F) ∧
          (0 ≤ c ↔ k = inst.graph.2.toSimple.treewidth) := by
  have hread := Io.readGraph_spec h
  obtain ⟨depth, s, hrun, hinsts, hback⟩ := exists_fuel hread.valid hread.identity
  refine ⟨depth, s, fun fuel hfuel => ⟨hrun fuel hfuel, ?_, ?_⟩⟩
  · apply treewidthSat_of_instances ks hsolver sh hms hce (hrun fuel hfuel) _ hback
    intro inst hinst
    obtain ⟨hg, hcore, hbound⟩ := hinsts inst hinst
    exact ⟨hg, hcore, hbound.trans hfuel⟩
  · intro inst hinst
    obtain ⟨hg, hcore, hbound⟩ := hinsts inst hinst
    have hlt := hcore.treewidth_lt
    obtain ⟨lists, t, hlists, hlength, hsizes⟩ := exists_run hsolver sh hg
      (Nat.lt_of_le_of_lt (Nat.le_add_left 1 _) hlt) hms hce hlt.le (fun _ => hlt)
      (hbound.trans hfuel)
    refine ⟨lists, t, hlists, fun k hk => ?_⟩
    have hsmall := listsSmall_take hcore.nonempty hlength hsizes (Nat.succ_le_succ hk)
    rcases Nat.lt_or_eq_of_le hk with hk | rfl
    · refine ⟨-1, [], hsmall.solve_of_lt ks hcore.nonempty hg hk, ?_⟩
      exact iff_of_false (by decide) hk.ne
    · obtain ⟨⟨c, F⟩, hsolve, -, htw⟩ := hsmall.solve_of_le ks hcore.nonempty hg le_rfl
      refine ⟨c, F, hsolve, iff_of_true ?_ rfl⟩
      have hc : c = inst.graph.2.toSimple.treewidth := htw
      exact hc ▸ Int.natCast_nonneg _

theorem treewidthSat_exact_cube :
    ∃ n g, Io.readGraph cubeLines = some ⟨n, g⟩ ∧ ∃ depth s, ∀ fuel, depth ≤ fuel →
      preprocess fuel g true = some s ∧
      treewidthSat KeySort.stable Solver.choice Shuffle.none fuel g 0 1 true =
        some (g.toSimple.treewidth : ℤ) := by
  obtain ⟨n, g, hg⟩ := exists_read_cube
  obtain ⟨depth, s, hrun⟩ := treewidthSat_exact KeySort.stable Solver.exact_choice Shuffle.none
    hg (Nat.zero_le 5) le_rfl
  exact ⟨n, g, hg, depth, s, fun fuel hfuel => ⟨(hrun fuel hfuel).1, (hrun fuel hfuel).2.1⟩⟩

/-! ## Without preprocessing -/

variable {fuel : ℕ}

/-- The graph with no vertices gets no solution. -/
theorem treewidthSatInstance_empty (ks : KeySort) (solver : Solver) (sh : Shuffle) (fuel : ℕ)
    (g : Graph 0) (minsepEncoding cardEncoding : ℕ) :
    ∀ o, (treewidthSatInstance ks solver sh fuel minsepEncoding cardEncoding g []).1 = some o →
      o = none := by
  intro o ho
  have hwp : wp (treewidthSatInstance ks solver sh fuel minsepEncoding cardEncoding g)
      (fun r _ => r = none) (fun _ => True) [] := by
    rw [treewidthSatInstance, wp_bind]
    exact wp_of_forall (fun _ _ => rfl) fun _ => trivial
  rw [wp, ho] at hwp
  exact hwp

/-- A solution of the whole graph is returned. -/
theorem treewidthSat_whole (ks : KeySort) (sh : Shuffle) (hg : g.Valid) (hid : g.HasIdentityMap)
    (h : ∃ sol, (treewidthSatInstance ks solver sh fuel minsepEncoding cardEncoding g []).1 =
      some (some sol) ∧ IsOptimal (wholeInstance g) sol) :
    treewidthSat ks solver sh fuel g minsepEncoding cardEncoding false =
      some (g.toSimple.treewidth : ℤ) := by
  obtain ⟨sol, hrun, hsol⟩ := h
  obtain ⟨sol', hmap, htw⟩ := mapBack_whole_optimal hg hid hsol
  have hruns : ((wholeState g).instances.mapM fun inst =>
      (treewidthSatInstance ks solver sh fuel minsepEncoding cardEncoding inst.graph.2 []).1) =
        some [some sol] := by
    rw [wholeState, List.mapM_cons, wholeInstance, hrun]
    rfl
  have hsols : [some sol].reduceOption = [sol] := rfl
  rw [treewidthSat, preprocess_false, Option.bind_eq_bind, Option.bind_some, hruns,
    Option.bind_eq_bind, Option.bind_some, hsols, hmap, Option.bind_eq_bind, Option.bind_some, htw]
  rfl

/-- Without a solution of the whole graph `MapBack` fails. -/
theorem treewidthSat_unsolved (ks : KeySort) (sh : Shuffle)
    (h : ∀ o, (treewidthSatInstance ks solver sh fuel minsepEncoding cardEncoding g []).1 =
      some o → o = none) :
    treewidthSat ks solver sh fuel g minsepEncoding cardEncoding false = none := by
  cases hrun : (treewidthSatInstance ks solver sh fuel minsepEncoding cardEncoding g []).1 with
  | none =>
      have hruns : ((wholeState g).instances.mapM fun inst =>
          (treewidthSatInstance ks solver sh fuel minsepEncoding cardEncoding
            inst.graph.2 []).1) = none := by
        rw [wholeState, List.mapM_cons, wholeInstance, hrun]
        rfl
      rw [treewidthSat, preprocess_false, Option.bind_eq_bind, Option.bind_some, hruns]
      rfl
  | some o =>
      obtain rfl := h o hrun
      have hruns : ((wholeState g).instances.mapM fun inst =>
          (treewidthSatInstance ks solver sh fuel minsepEncoding cardEncoding
            inst.graph.2 []).1) = some [none] := by
        rw [wholeState, List.mapM_cons, wholeInstance, hrun]
        rfl
      rw [treewidthSat, preprocess_false, Option.bind_eq_bind, Option.bind_some, hruns]
      rfl

/-- Every graph that was read has no vertices or an edge. -/
theorem IsRead.two_le (h : IsRead g) (hn : 0 < n) : 2 ≤ n := by
  obtain ⟨w, hw⟩ := (mem_support _).mp (h.support ⟨0, hn⟩)
  have hne : (w : ℕ) ≠ 0 := fun heq => hw.ne (Fin.ext heq.symm)
  have hlt := w.isLt
  omega

/-- A graph that is solved with and without preprocessing. -/
def Agrees (ks : KeySort) (solver : Solver) (sh : Shuffle) (g : Graph n)
    (minsepEncoding cardEncoding : ℕ) : Prop :=
  ∃ depth, ∀ fuel, depth ≤ fuel → ∃ c,
    treewidthSat ks solver sh fuel g minsepEncoding cardEncoding false = some c ∧
    treewidthSat ks solver sh fuel g minsepEncoding cardEncoding true = some c

theorem not_agrees_of_complete (ks : KeySort) (hsolver : solver.Exact) (sh : Shuffle)
    (hg : g.Valid) (hn : 2 ≤ n) (hms : minsepEncoding ≤ 5) (htop : g.toSimple = ⊤) :
    ¬Agrees ks solver sh g minsepEncoding 1 := by
  rintro ⟨depth, hrun⟩
  have : Nonempty (Fin n) := ⟨⟨0, Nat.zero_lt_of_lt hn⟩⟩
  have htw : g.toSimple.treewidth + 1 = n := by
    rw [htop, treewidth_top, Nat.card_fin]
  have hnone := treewidthSatInstance_full ks hsolver sh hg hn hms htw
    (le_max_right depth (roundBound n))
  obtain ⟨c, hc, -⟩ := hrun _ (le_max_left depth (roundBound n))
  rw [treewidthSat_unsolved ks sh fun o ho => absurd (hnone.symm.trans ho) nofun] at hc
  cases hc

theorem agrees_of_lt (ks : KeySort) (hsolver : solver.Exact) (sh : Shuffle)
    (hg : g.Valid) (hid : g.HasIdentityMap) (hn : 2 ≤ n) (hms : minsepEncoding ≤ 5)
    (hce : cardEncoding ≤ 1) (h1 : cardEncoding = 1 → g.toSimple.treewidth + 1 < n) :
    Agrees ks solver sh g minsepEncoding cardEncoding := by
  obtain ⟨depth, s, hrun, hinsts, hback⟩ := exists_fuel hg hid
  refine ⟨max depth (roundBound n), fun fuel hfuel => ⟨g.toSimple.treewidth, ?_, ?_⟩⟩
  · apply treewidthSat_whole ks sh hg hid
    exact treewidthSatInstance_spec ks hsolver sh hg hn hms hce h1
      ((le_max_right _ _).trans hfuel)
  · have hdepth := (le_max_left _ _).trans hfuel
    apply treewidthSat_of_instances ks hsolver sh hms hce (hrun fuel hdepth) _ hback
    intro inst hinst
    obtain ⟨hg, hcore, hbound⟩ := hinsts inst hinst
    exact ⟨hg, hcore, hbound.trans hdepth⟩

/-- `TreewidthSat` agrees with and without preprocessing exactly on the graphs with vertices
that are not complete or are counted with the network.  In both runs `Solve` reads `IdOf` of a
component that no clique so far produced as a missing child; which lookups are of that kind
is the subject of `BtAlgorithm.ChildrenProduced`. -/
theorem treewidthSat_agrees_iff (ks : KeySort) (hsolver : solver.Exact) (sh : Shuffle)
    {input : List Text} (h : Io.readGraph input = some ⟨n, g⟩) (hms : minsepEncoding ≤ 5)
    (hce : cardEncoding ≤ 1) :
    Agrees ks solver sh g minsepEncoding cardEncoding ↔
      0 < n ∧ (cardEncoding = 0 ∨ g.toSimple ≠ ⊤) := by
  have hread := Io.readGraph_spec h
  rcases Nat.eq_zero_or_pos n with rfl | hn
  · refine iff_of_false ?_ fun hpos => absurd hpos.1 (lt_irrefl 0)
    rintro ⟨depth, hrun⟩
    obtain ⟨c, hc, -⟩ := hrun depth le_rfl
    rw [treewidthSat_unsolved ks sh (treewidthSatInstance_empty ks solver sh depth g _ _)] at hc
    cases hc
  have hn2 := hread.two_le hn
  constructor
  · intro hagrees
    refine ⟨hn, ?_⟩
    rcases Nat.le_one_iff_eq_zero_or_eq_one.mp hce with h0 | rfl
    · exact Or.inl h0
    · exact Or.inr fun htop =>
        not_agrees_of_complete ks hsolver sh hread.valid hn2 hms htop hagrees
  · rintro ⟨-, hor⟩
    apply agrees_of_lt ks hsolver sh hread.valid hread.identity hn2 hms hce
    intro h1
    have hne := hor.resolve_left fun h0 => absurd (h0.symm.trans h1) Nat.zero_ne_one
    have hlt := treewidth_lt_of_ne_top hne
    rwa [Nat.card_fin] at hlt

theorem treewidthSat_agrees_iff_twoEdges :
    ∃ n g, Io.readGraph twoEdges = some ⟨n, g⟩ ∧
      (Agrees KeySort.stable Solver.choice Shuffle.none g 0 1 ↔
        0 < n ∧ (1 = 0 ∨ g.toSimple ≠ ⊤)) := by
  obtain ⟨n, g, hg⟩ := exists_read_twoEdges
  exact ⟨n, g, hg, treewidthSat_agrees_iff KeySort.stable Solver.exact_choice Shuffle.none hg
    (Nat.zero_le 5) le_rfl⟩

/-- One edge. -/
def oneEdge : List Text :=
  [['p', ' ', 'e', ' ', '2', ' ', '1'], ['e', ' ', '1', ' ', '2']]

/-- A single edge is not solved with the totalizer and without preprocessing. -/
theorem not_agrees_oneEdge :
    ∃ n g, Io.readGraph oneEdge = some ⟨n, g⟩ ∧
      ¬Agrees KeySort.stable Solver.choice Shuffle.none g 0 1 := by
  have hsome : (Io.readGraph oneEdge).isSome = true := by decide
  obtain ⟨⟨n, g⟩, hg⟩ := Option.isSome_iff_exists.mp hsome
  have hsize : (Io.readGraph oneEdge).map Sigma.fst = some 2 := by decide
  rw [hg, Option.map_some, Option.some_inj] at hsize
  have hn : n = 2 := hsize
  subst hn
  have hread := Io.readGraph_spec hg
  refine ⟨2, g, hg, not_agrees_of_complete KeySort.stable Solver.exact_choice Shuffle.none
    hread.valid le_rfl (Nat.zero_le 5) ?_⟩
  -- Both vertices have a neighbor.
  ext u v
  refine ⟨fun huv => huv.ne, fun huv => ?_⟩
  obtain ⟨w, hw⟩ := (mem_support _).mp (hread.support u)
  have hwv : w = v := by
    have hwu := hw.ne
    rw [top_adj] at huv
    omega
  exact hwv ▸ hw

end Run

end Triangulator
