import Triangulator.Verification.AspModels
import Triangulator.Verification.SizedRun

/-!
# The enumeration reads back the potential maximal cliques

What clingo prints for a program is a line starting with `Answer:` for every answer set
once, followed by the line of its shown atoms.  The parser recovers from such a line the
vertices the answer set guesses.
-/

namespace Triangulator

open SimpleGraph AnswerSet

variable {n : ℕ}

namespace AspEnumerator

variable {I : Set Atom} {x : ℕ} {xs : List ℕ} {models : List (Set Atom)}
  {lines : List (List Char)} {P : Set (Statement Atom)}

/-! ## What clingo prints -/

/-- The text of a shown atom. -/
def pmcText (x : ℕ) : List Char :=
  "pmc(".toList ++ Nat.toDigits 10 x ++ [')']

/-- The line of the shown atoms. -/
def answerText : List ℕ → List Char
  | [] => []
  | [x] => pmcText x
  | x :: y :: xs => pmcText x ++ ' ' :: answerText (y :: xs)

/-- The lines printed for a list of answer sets, with the shown atoms of each in some
order and other lines in between. -/
inductive Printed : List (Set Atom) → List (List Char) → Prop
  | nil : Printed [] []
  | other {models : List (Set Atom)} {lines : List (List Char)} {line : List Char}
      (hline : ¬"Answer:".toList <+: line) (h : Printed models lines) :
      Printed models (line :: lines)
  | answer {I : Set Atom} {models : List (Set Atom)} {lines : List (List Char)}
      (number : List Char) (xs : List ℕ) (hnumber : number ≠ []) (hnodup : xs.Nodup)
      (hxs : ∀ x, x ∈ xs ↔ Atom.pmc x ∈ I) (h : Printed models lines) :
      Printed (I :: models) (("Answer:".toList ++ number) :: answerText xs :: lines)

/-- Every answer set is printed once. -/
def PrintsAnswers (P : Set (Statement Atom)) (lines : List (List Char)) : Prop :=
  ∃ models, models.Nodup ∧ (∀ I, I ∈ models ↔ IsAnswerSet P I) ∧ Printed models lines

/-! ## Reading numbers -/

theorem stoiDigits_toDigits (x : ℕ) : stoiDigits (Nat.toDigits 10 x) = some x := by
  have htake : (Nat.toDigits 10 x).takeWhile Char.isDigit = Nat.toDigits 10 x := by
    rw [List.takeWhile_eq_self_iff]
    intro c hc
    exact Nat.isDigit_of_mem_toDigits (by decide) le_rfl hc
  have hne : (Nat.toDigits 10 x).isEmpty = false := by
    rw [List.isEmpty_eq_false_iff]
    exact Nat.toDigits_ne_nil
  rw [stoiDigits, htake, hne, if_neg Bool.false_ne_true,
    Nat.ofDigitChars_toDigits (by decide) le_rfl]

theorem stoi_toDigits (x : ℕ) : stoi (Nat.toDigits 10 x) = some (x : ℤ) := by
  have hdigits := stoiDigits_toDigits x
  have hmem : ∀ c ∈ Nat.toDigits 10 x, c.isDigit = true := fun c hc =>
    Nat.isDigit_of_mem_toDigits (by decide) le_rfl hc
  rw [stoi]
  cases hds : Nat.toDigits 10 x with
  | nil => exact absurd hds Nat.toDigits_ne_nil
  | cons c ds =>
      have hc := hmem c (by rw [hds]; exact List.mem_cons_self)
      have hspace : Io.isSpace c = false := by
        by_contra hws
        rw [Bool.not_eq_false, Io.isSpace] at hws
        simp only [Bool.or_eq_true, decide_eq_true_eq] at hws
        rcases hws with ((((rfl | rfl) | rfl) | rfl) | rfl) | rfl <;> exact absurd hc (by decide)
      rw [List.dropWhile_cons_of_neg (by rw [hspace]; exact Bool.false_ne_true)]
      rw [hds] at hdigits
      have hminus : c ≠ '-' := by
        rintro rfl
        exact absurd hc (by decide)
      have hplus : c ≠ '+' := by
        rintro rfl
        exact absurd hc (by decide)
      split
      · next heq => exact absurd (List.cons.inj heq).1 hminus
      · next heq => exact absurd (List.cons.inj heq).1 hplus
      · rw [hdigits]
        rfl

/-! ## Reading an answer -/

theorem parseChar_digit {c : Char} (hc : c.isDigit = true) (s : ParseState n)
    (hs : s.paren = true) : parseChar s c = some { s with num := s.num ++ [c] } := by
  have hopen : c ≠ '(' := by
    rintro rfl
    exact absurd hc (by decide)
  have hclose : c ≠ ')' := by
    rintro rfl
    exact absurd hc (by decide)
  rw [parseChar, if_neg hopen, if_neg hclose, if_pos hs]

theorem parse_digits (ds : List Char) (hds : ∀ c ∈ ds, c.isDigit = true) (num : List Char)
    (pmc : List (Fin n)) : ds.foldlM parseChar (⟨true, num, pmc⟩ : ParseState n) =
      some ⟨true, num ++ ds, pmc⟩ := by
  induction ds generalizing num with
  | nil => simp
  | cons c ds ih =>
      rw [List.foldlM_cons, parseChar_digit (hds c List.mem_cons_self) _ rfl,
        Option.bind_eq_bind, Option.bind_some,
        ih (fun c hc => hds c (List.mem_cons_of_mem _ hc))]
      simp

/-- A closing parenthesis ends the number of a vertex. -/
theorem parseChar_close (u : Fin n) (pmc : List (Fin n)) :
    parseChar (⟨true, Nat.toDigits 10 ((u : ℕ) + 1), pmc⟩ : ParseState n) ')' =
      some ⟨false, Nat.toDigits 10 ((u : ℕ) + 1), pmc ++ [u]⟩ := by
  have hrange : (0 : ℤ) ≤ ((u : ℕ) + 1 : ℕ) - 1 ∧ ((((u : ℕ) + 1 : ℕ) : ℤ) - 1).toNat < n := by
    have := u.isLt
    omega
  have hfin : (⟨((((u : ℕ) + 1 : ℕ) : ℤ) - 1).toNat, hrange.2⟩ : Fin n) = u := by
    apply Fin.ext
    dsimp only
    omega
  rw [parseChar, if_neg (by decide), if_pos rfl, if_pos rfl, stoi_toDigits]
  simp only [Option.bind_eq_bind, Option.bind_some]
  rw [dif_pos hrange, hfin]

/-- The text of a shown atom adds its vertex. -/
theorem parse_pmcText (u : Fin n) (num : List Char) (pmc : List (Fin n)) :
    ∃ num', (pmcText ((u : ℕ) + 1)).foldlM parseChar (⟨false, num, pmc⟩ : ParseState n) =
      some ⟨false, num', pmc ++ [u]⟩ := by
  have hdigits : ∀ c ∈ Nat.toDigits 10 ((u : ℕ) + 1), c.isDigit = true := fun c hc =>
    Nat.isDigit_of_mem_toDigits (by decide) le_rfl hc
  have hopen : "pmc(".toList.foldlM parseChar (⟨false, num, pmc⟩ : ParseState n) =
      some ⟨true, [], pmc⟩ := rfl
  refine ⟨Nat.toDigits 10 ((u : ℕ) + 1), ?_⟩
  rw [pmcText, List.foldlM_append, List.foldlM_append, hopen, Option.bind_eq_bind,
    Option.bind_some, parse_digits _ hdigits, Option.bind_some, List.nil_append,
    List.foldlM_cons, parseChar_close]
  rfl

/-- The line of an answer gives its vertices in the order printed. -/
theorem parse_answerText (us : List (Fin n)) (num : List Char) (pmc : List (Fin n)) :
    ∃ num', (answerText (us.map fun u : Fin n => (u : ℕ) + 1)).foldlM parseChar
      (⟨false, num, pmc⟩ : ParseState n) = some ⟨false, num', pmc ++ us⟩ := by
  induction us generalizing num pmc with
  | nil => exact ⟨num, by simp [answerText]⟩
  | cons u us ih =>
      obtain ⟨num₁, h₁⟩ := parse_pmcText u num pmc
      cases us with
      | nil => exact ⟨num₁, h₁⟩
      | cons v us =>
          obtain ⟨num₂, h₂⟩ := ih num₁ (pmc ++ [u])
          refine ⟨num₂, ?_⟩
          rw [List.map_cons, List.map_cons, answerText, List.foldlM_append, h₁,
            Option.bind_eq_bind, Option.bind_some, List.foldlM_cons]
          rw [List.append_assoc, List.singleton_append] at h₂
          exact h₂

theorem length_answerText (hxs : xs ≠ []) : 6 ≤ (answerText xs).length := by
  have hpmc : ∀ x, 6 ≤ (pmcText x).length := by
    intro x
    have hpos := Nat.length_toDigits_pos (b := 10) (n := x)
    simp only [pmcText, List.length_append, List.length_singleton]
    have hfour : "pmc(".toList.length = 4 := rfl
    omega
  match xs with
  | [] => exact absurd rfl hxs
  | [x] => exact hpmc x
  | x :: y :: xs =>
      rw [answerText, List.length_append]
      exact (hpmc x).trans (Nat.le_add_right _ _)

theorem parseAnswer_answerText {us : List (Fin n)} (hus : us ≠ []) :
    parseAnswer n (answerText (us.map fun u : Fin n => (u : ℕ) + 1)) = some us := by
  obtain ⟨num, h⟩ := parse_answerText us [] []
  have hmap : us.map (fun u : Fin n => (u : ℕ) + 1) ≠ [] := by
    rwa [Ne, List.map_eq_nil_iff]
  have hlen : 0 < ([] ++ us : List (Fin n)).length := by
    rw [List.nil_append]
    exact List.length_pos_of_ne_nil hus
  rw [parseAnswer, if_pos (length_answerText hmap), h, Option.bind_eq_bind, Option.bind_some,
    if_pos ⟨rfl, hlen⟩, List.nil_append]

/-! ## Reading the output -/

theorem isAnswerLine_number {number : List Char} (h : number ≠ []) :
    isAnswerLine ("Answer:".toList ++ number) = true := by
  have hlen : "Answer:".toList.length = 7 := rfl
  have hpos := List.length_pos_of_ne_nil h
  rw [isAnswerLine, List.length_append, hlen, Bool.and_eq_true, decide_eq_true_eq,
    decide_eq_true_eq]
  refine ⟨by omega, ?_⟩
  rw [← hlen, List.take_left']
  rfl

theorem readAnswers_other {line : List Char} (hline : ¬"Answer:".toList <+: line) :
    readAnswers n (line :: lines) = readAnswers n lines := by
  have hno : isAnswerLine line = false := by
    rw [isAnswerLine, Bool.and_eq_false_iff]
    right
    rw [decide_eq_false_iff_not]
    intro heq
    exact hline (heq ▸ List.take_prefix 7 line)
  cases lines with
  | nil => simp [readAnswers, hno]
  | cons l lines => simp [readAnswers, hno]

/-- Reading the lines printed for some answer sets gives the vertices each guesses. -/
theorem readAnswers_printed (h : Printed models lines)
    (hmodels : ∀ I ∈ models, (guessed n I).Nonempty ∧ ∀ x, Atom.pmc x ∈ I →
      At (Set.univ : Set (Fin n)) x) :
    ∃ ret, readAnswers n lines = some ret ∧
      List.Forall₂ (fun I l => l.Nodup ∧ vset l = guessed n I) models ret := by
  induction h with
  | nil => exact ⟨[], rfl, .nil⟩
  | other hline _ ih =>
      obtain ⟨ret, hret, hall⟩ := ih hmodels
      exact ⟨ret, (readAnswers_other hline).trans hret, hall⟩
  | @answer I models lines number xs hnumber hnodup hxs _ ih =>
      obtain ⟨ret, hret, hall⟩ := ih fun J hJ => hmodels J (List.mem_cons_of_mem I hJ)
      obtain ⟨⟨v, hv⟩, hrange⟩ := hmodels I List.mem_cons_self
      -- The numbers printed are those of the guessed vertices.
      obtain ⟨us, rfl⟩ : ∃ us : List (Fin n), us.map (fun u : Fin n => (u : ℕ) + 1) = xs := by
        have hmem : ∀ x ∈ xs, ∃ u : Fin n, (u : ℕ) + 1 = x := by
          intro x hx
          obtain ⟨u, -, hu⟩ := hrange x ((hxs x).mp hx)
          exact ⟨u, hu.symm⟩
        clear hxs hnodup
        induction xs with
        | nil => exact ⟨[], rfl⟩
        | cons x xs ihxs =>
            obtain ⟨us, hus⟩ := ihxs fun y hy => hmem y (List.mem_cons_of_mem x hy)
            obtain ⟨u, hu⟩ := hmem x List.mem_cons_self
            exact ⟨u :: us, by rw [List.map_cons, hu, hus]⟩
      have hvset : vset us = guessed n I := by
        ext u
        have hiff := hxs ((u : ℕ) + 1)
        rw [List.mem_map] at hiff
        constructor
        · exact fun hu => hiff.mp ⟨u, hu, rfl⟩
        · intro hu
          obtain ⟨u', hu', heq⟩ := hiff.mpr hu
          obtain rfl : u' = u := Fin.ext (Nat.succ_injective heq)
          exact hu'
      have hus : us ≠ [] := by
        rintro rfl
        rw [← hvset] at hv
        exact absurd hv List.not_mem_nil
      refine ⟨us :: ret, ?_, .cons ⟨hnodup.of_map _, hvset⟩ hall⟩
      rw [readAnswers, if_pos (isAnswerLine_number hnumber), parseAnswer_answerText hus, hret]
      rfl

/-- The lists read are the guessed sets of the answer sets. -/
theorem readAnswers_spec (h : PrintsAnswers P lines)
    (hP : ∀ I, IsAnswerSet P I → (guessed n I).Nonempty ∧ ∀ x, Atom.pmc x ∈ I →
      At (Set.univ : Set (Fin n)) x) :
    ∃ ret, readAnswers n lines = some ret ∧ (∀ l ∈ ret, l.Nodup) ∧
      (∀ Ω, (∃ l ∈ ret, vset l = Ω) ↔ ∃ I, IsAnswerSet P I ∧ guessed n I = Ω) ∧
      ((∀ I J, IsAnswerSet P I → IsAnswerSet P J → guessed n I = guessed n J → I = J) →
        (ret.map vset).Nodup) := by
  obtain ⟨models, hnd, hmodels, hprinted⟩ := h
  obtain ⟨ret, hret, hall⟩ := readAnswers_printed hprinted fun I hI => hP I ((hmodels I).mp hI)
  have hmap : ret.map vset = models.map (guessed n) := by
    clear hnd hmodels hprinted hret
    induction hall with
    | nil => rfl
    | cons hl _ ih => rw [List.map_cons, List.map_cons, hl.2, ih]
  have hmem : ∀ Ω, (∃ l ∈ ret, vset l = Ω) ↔ Ω ∈ models.map (guessed n) := by
    intro Ω
    rw [← hmap, List.mem_map]
  refine ⟨ret, hret, ?_, ?_, ?_⟩
  · clear hnd hmodels hprinted hret hmap hmem
    induction hall with
    | nil => simp
    | cons hl _ ih =>
        intro l hl'
        rcases List.mem_cons.mp hl' with rfl | hl'
        · exact hl.1
        · exact ih l hl'
  · intro Ω
    rw [hmem, List.mem_map]
    simp only [hmodels]
  · intro hinj
    rw [hmap]
    apply hnd.map_on
    intro I hI J hJ
    exact hinj I J ((hmodels I).mp hI) ((hmodels J).mp hJ)

/-- A cover may be padded to any number of hyperedges there are. -/
theorem hasCover_of_le {h : HyperGraph n} {Ω : Set (Fin n)} {k size : ℕ}
    (hk : h.HasCover Ω k) (hle : k ≤ size) (hsize : size ≤ h.edges.length) :
    h.HasCover Ω size := by
  obtain ⟨J, hJ, hcover⟩ := hk
  obtain ⟨K, hJK, -, hK⟩ := Finset.exists_subsuperset_card_eq (Finset.subset_univ J)
    (hJ.trans_le hle) (by rwa [Finset.card_univ, Fintype.card_fin])
  refine ⟨K, hK, fun v hv => ?_⟩
  obtain ⟨i, hi, hvi⟩ := hcover v hv
  exact ⟨i, hJK hi, hvi⟩

/-- When clingo prints the answer sets of the encoding and the facts, `TreewidthPmcs`
returns the potential maximal cliques of the given size, each once, and
`HypertreewidthPmcs` those of the primal graph that the given number of hyperedges
cover. -/
theorem pmcs_of_answers (clingo : Set (Statement Atom) → List (List Char)) :
    (∀ {n : ℕ} (g : Graph n) (size : ℕ), g.Valid → 0 < n →
      PrintsAnswers (program TreewidthRule (treewidthFacts g size))
        (clingo (program TreewidthRule (treewidthFacts g size))) →
      ∃ ret, treewidthPmcs clingo g size = some ret ∧ (ret.map vset).Nodup ∧
        (∀ l ∈ ret, l.Nodup) ∧
        ∀ Ω, (g.toSimple.IsPotentialMaximalClique Ω ∧ Ω.ncard = size) ↔
          ∃ l ∈ ret, vset l = Ω) ∧
    ∀ {n : ℕ} (h : HyperGraph n) (size : ℕ), h.Valid → 0 < n → size ≤ h.edges.length →
      PrintsAnswers (program HypertreewidthRule (hypertreewidthFacts h size))
        (clingo (program HypertreewidthRule (hypertreewidthFacts h size))) →
      ∃ ret, hypertreewidthPmcs clingo h size = some ret ∧
        Lists {Ω | h.primal.toSimple.IsPotentialMaximalClique Ω ∧
          ∃ k ≤ size, h.HasCover Ω k} ret := by
  constructor
  · intro n g size hg hn hclingo
    have : Nonempty (Fin n) := ⟨⟨0, hn⟩⟩
    obtain ⟨ret, hret, hnd, hmem, hinj⟩ := readAnswers_spec hclingo fun I hI => by
      obtain ⟨S, rfl, hS, -⟩ := (isAnswerSet_treewidth_iff hg).mp hI
      rw [guessed_treewidthModel]
      refine ⟨hS.nonempty, ?_⟩
      rintro x ⟨u, -, rfl⟩
      exact ⟨u, trivial, rfl⟩
    refine ⟨ret, hret, hinj ?_, hnd, fun Ω => ?_⟩
    · intro I J hI hJ heq
      obtain ⟨S, rfl, -⟩ := (isAnswerSet_treewidth_iff hg).mp hI
      obtain ⟨T, rfl, -⟩ := (isAnswerSet_treewidth_iff hg).mp hJ
      rw [guessed_treewidthModel, guessed_treewidthModel] at heq
      rw [heq]
    · rw [hmem, isPotentialMaximalClique_iff]
      constructor
      · intro hΩ
        exact ⟨_, (isAnswerSet_treewidth_iff hg).mpr ⟨Ω, rfl, hΩ⟩, guessed_treewidthModel Ω⟩
      · rintro ⟨I, hI, rfl⟩
        obtain ⟨S, rfl, hS⟩ := (isAnswerSet_treewidth_iff hg).mp hI
        rw [guessed_treewidthModel]
        exact hS
  · intro n h size hh hn hsize hclingo
    have : Nonempty (Fin n) := ⟨⟨0, hn⟩⟩
    obtain ⟨ret, hret, hnd, hmem, -⟩ := readAnswers_spec hclingo fun I hI => by
      obtain ⟨S, T, rfl, hS, -⟩ := (isAnswerSet_hypertreewidth_iff hh).mp hI
      rw [guessed_hypertreewidthModel]
      refine ⟨hS.nonempty, ?_⟩
      rintro x ⟨u, -, rfl⟩
      exact ⟨u, trivial, rfl⟩
    refine ⟨sortAndDedup (ret.map sort), ?_, sortAndDedup_nodup _, ?_, fun Ω => ?_⟩
    · rw [hypertreewidthPmcs, hret]
      rfl
    · intro l hl
      rw [mem_sortAndDedup, List.mem_map] at hl
      obtain ⟨l, hl, rfl⟩ := hl
      exact sort_sortedLT (hnd l hl)
    · have hsorted : (∃ l ∈ sortAndDedup (ret.map sort), vset l = Ω) ↔
          ∃ l ∈ ret, vset l = Ω := by
        simp only [mem_sortAndDedup, List.mem_map]
        constructor
        · rintro ⟨-, ⟨l, hl, rfl⟩, rfl⟩
          exact ⟨l, hl, (vset_sort l).symm⟩
        · rintro ⟨l, hl, rfl⟩
          exact ⟨_, ⟨l, hl, rfl⟩, vset_sort l⟩
      rw [hsorted, hmem, Set.mem_ofPred_eq, isPotentialMaximalClique_iff]
      constructor
      · rintro ⟨hΩ, k, hk, hcover⟩
        obtain ⟨J, hJ, hcover⟩ := hasCover_of_le hcover hk hsize
        refine ⟨_, (isAnswerSet_hypertreewidth_iff hh).mpr ⟨Ω, (J : Set _), rfl, hΩ, ?_, ?_⟩,
          guessed_hypertreewidthModel Ω _⟩
        · rw [Set.ncard_coe_finset, hJ]
        · exact hcover
      · rintro ⟨I, hI, rfl⟩
        obtain ⟨S, T, rfl, hS, hT, hcover⟩ := (isAnswerSet_hypertreewidth_iff hh).mp hI
        rw [guessed_hypertreewidthModel]
        refine ⟨hS, size, le_rfl, (Set.toFinite T).toFinset, ?_, fun v hv => ?_⟩
        · rw [← Set.ncard_eq_toFinset_card T, hT]
        · obtain ⟨j, hj, hvj⟩ := hcover v hv
          exact ⟨j, (Set.Finite.mem_toFinset _).mpr hj, hvj⟩

/-! ## A path -/

/-- What clingo prints for a path on three vertices and the cliques with two of them. -/
def pathAnswers : List Text :=
  ["Answer: 1", "pmc(1) pmc(2)", "Answer: 2", "pmc(2) pmc(3)"].map String.toList

theorem printsAnswers_path {J : Set Atom} (hP : ∀ K, IsAnswerSet P K ↔ K = I ∨ K = J)
    (hI : ∀ x, Atom.pmc x ∈ I ↔ At (vset [(0 : Fin 3), 1]) x)
    (hJ : ∀ x, Atom.pmc x ∈ J ↔ At (vset [(1 : Fin 3), 2]) x) :
    PrintsAnswers P pathAnswers := by
  have hI' : ∀ x, x ∈ [1, 2] ↔ Atom.pmc x ∈ I := fun x => by
    rw [hI]
    simp [At, vset]
  have hJ' : ∀ x, x ∈ [2, 3] ↔ Atom.pmc x ∈ J := fun x => by
    rw [hJ]
    simp [At, vset]
  refine ⟨[I, J], ?_, fun K => ?_, ?_⟩
  · rw [List.nodup_cons, List.mem_singleton]
    refine ⟨?_, List.nodup_singleton J⟩
    rintro rfl
    have h1 : 1 ∈ [2, 3] := (hJ' 1).mpr ((hI' 1).mp (by decide))
    exact absurd h1 (by decide)
  · rw [hP, List.mem_cons, List.mem_singleton]
  · exact .answer " 1".toList [1, 2] (by decide) (by decide) hI'
      (.answer " 2".toList [2, 3] (by decide) (by decide) hJ' .nil)

/-- The potential maximal cliques of a path are the ends of its edges. -/
theorem isPmc_path_iff {g : Graph 3} (hg : g.Valid)
    (htest : ((List.finRange 3).sublists.all fun l =>
      decide (g.isPmc l = some (decide (l = [0, 1] ∨ l = [1, 2])))) = true) (S : Set (Fin 3)) :
    g.toSimple.IsPmc S ↔ S = vset [0, 1] ∨ S = vset [1, 2] := by
  classical
  have hlist : ∀ l ∈ (List.finRange 3).sublists,
      g.toSimple.IsPmc (vset l) ↔ l = [0, 1] ∨ l = [1, 2] := by
    intro l hl
    have hsub := List.mem_sublists.mp hl
    obtain ⟨b, hb, hiff⟩ := isPmc_spec hg ((List.nodup_finRange 3).sublist hsub)
    have hl' := of_decide_eq_true (List.all_eq_true.mp htest l hl)
    rw [hb, Option.some_inj] at hl'
    rw [← isPotentialMaximalClique_iff, ← hiff, hl', decide_eq_true_iff]
  constructor
  · intro hS
    set l := (List.finRange 3).filter fun v => decide (v ∈ S)
    have hl : vset l = S := by
      ext v
      simp [l, vset]
    rcases (hlist l (List.mem_sublists.mpr List.filter_sublist)).mp (hl ▸ hS) with heq | heq
    · exact Or.inl (hl.symm.trans (congrArg vset heq))
    · exact Or.inr (hl.symm.trans (congrArg vset heq))
  · rintro (rfl | rfl)
    · exact (hlist [0, 1] (by decide)).mpr (Or.inl rfl)
    · exact (hlist [1, 2] (by decide)).mpr (Or.inr rfl)

theorem pmcs_of_answers_path :
    ∃ h₁ h, (HyperGraph.empty 3).addEdge [0, 1] = some h₁ ∧ h₁.addEdge [1, 2] = some h ∧
      (∃ ret, treewidthPmcs (fun _ => pathAnswers) h.primal 2 = some ret ∧
        (ret.map vset).Nodup ∧ (∀ l ∈ ret, l.Nodup) ∧
        ∀ Ω, (h.primal.toSimple.IsPotentialMaximalClique Ω ∧ Ω.ncard = 2) ↔
          ∃ l ∈ ret, vset l = Ω) ∧
      ∃ ret, hypertreewidthPmcs (fun _ => pathAnswers) h 1 = some ret ∧
        Lists {Ω | h.primal.toSimple.IsPotentialMaximalClique Ω ∧
          ∃ k ≤ 1, h.HasCover Ω k} ret := by
  obtain ⟨h₁, hadd₁, hv₁, hedges₁⟩ := HyperGraph.addEdge_spec (HyperGraph.valid_empty 3) [0, 1]
  obtain ⟨h, hadd, hv, hedges⟩ := HyperGraph.addEdge_spec hv₁ [1, 2]
  have hedges : h.edges = [[0, 1], [1, 2]] := by
    rw [hedges, hedges₁]
    decide
  have htest : (((HyperGraph.empty 3).addEdge [0, 1]).bind fun h₁ => h₁.addEdge [1, 2]).map
      (fun h => (List.finRange 3).sublists.all fun l =>
        decide (h.primal.isPmc l = some (decide (l = [0, 1] ∨ l = [1, 2])))) = some true := by
    decide
  rw [hadd₁, Option.bind_some, hadd, Option.map_some, Option.some_inj] at htest
  have hpmc := isPmc_path_iff hv.primal htest
  have hspec := pmcs_of_answers fun _ => pathAnswers
  refine ⟨h₁, h, hadd₁, hadd, ?_, ?_⟩
  · apply hspec.1 h.primal 2 hv.primal (by decide)
    apply printsAnswers_path (I := treewidthModel h.primal 2 (vset [0, 1]))
      (J := treewidthModel h.primal 2 (vset [1, 2])) ?_ (fun x => Iff.rfl) fun x => Iff.rfl
    intro K
    rw [isAnswerSet_treewidth_iff hv.primal]
    constructor
    · rintro ⟨S, rfl, hS, -⟩
      exact ((hpmc S).mp hS).imp (congrArg _) (congrArg _)
    · rintro (rfl | rfl)
      · exact ⟨_, rfl, (hpmc _).mpr (Or.inl rfl), ncard_vset (by decide)⟩
      · exact ⟨_, rfl, (hpmc _).mpr (Or.inr rfl), ncard_vset (by decide)⟩
  · have hlen : h.edges.length = 2 := congrArg List.length hedges
    -- Each clique is covered by one of the two hyperedges only.
    set j₀ : Fin h.edges.length := ⟨0, by omega⟩
    set j₁ : Fin h.edges.length := ⟨1, by omega⟩
    have hj : ∀ j, j = j₀ ∨ j = j₁ := fun j => by
      have hlt := j.isLt
      rcases Nat.eq_zero_or_pos j.val with h0 | hpos
      · exact Or.inl (Fin.ext h0)
      · exact Or.inr (Fin.ext (show j.val = 1 by omega))
    have hget₀ : h.edges.get j₀ = [0, 1] := by simp [j₀, hedges]
    have hget₁ : h.edges.get j₁ = [1, 2] := by simp [j₁, hedges]
    apply hspec.2 h 1 hv (by decide) (by omega)
    apply printsAnswers_path (I := hypertreewidthModel h 1 (vset [0, 1]) {j₀})
      (J := hypertreewidthModel h 1 (vset [1, 2]) {j₁}) ?_ (fun x => Iff.rfl) fun x => Iff.rfl
    intro K
    rw [isAnswerSet_hypertreewidth_iff hv]
    constructor
    · rintro ⟨S, T, rfl, hS, hT, hcover⟩
      obtain ⟨j, rfl⟩ := Set.ncard_eq_one.mp hT
      have hall : ∀ v ∈ S, v ∈ h.edges.get j := fun v hvS => by
        obtain ⟨i, rfl, hvi⟩ := hcover v hvS
        exact hvi
      rcases (hpmc S).mp hS with rfl | rfl <;> rcases hj j with rfl | rfl
      · exact Or.inl rfl
      · exact absurd (hget₁ ▸ hall 0 (by simp [vset])) (by decide)
      · exact absurd (hget₀ ▸ hall 2 (by simp [vset])) (by decide)
      · exact Or.inr rfl
    · rintro (rfl | rfl)
      · refine ⟨_, _, rfl, (hpmc _).mpr (Or.inl rfl), Set.ncard_singleton j₀, fun v hvS => ?_⟩
        exact ⟨j₀, rfl, hget₀ ▸ hvS⟩
      · refine ⟨_, _, rfl, (hpmc _).mpr (Or.inr rfl), Set.ncard_singleton j₁, fun v hvS => ?_⟩
        exact ⟨j₁, rfl, hget₁ ▸ hvS⟩

end AspEnumerator

end Triangulator
