import Triangulator.GraphTheory.Joined
import Triangulator.Model.AspEnumerator
import Triangulator.Verification.FixedSizeHyper

/-!
# The answer sets of the encodings

An answer set is determined by the guessed atoms.  The predicate `c` is the least one
that contains the edges and continues past the vertices outside the guess, so it holds
of the pairs joined outside the guessed set, and the tests accept exactly the potential
maximal cliques.
-/

namespace Triangulator

open SimpleGraph AnswerSet

variable {n : ℕ}

namespace AspEnumerator

variable {G : SimpleGraph (Fin n)} {S : Set (Fin n)} {enc : Statement Atom → Prop}
  {facts : List Atom} {I : Set Atom} {a : Atom} {x y : ℕ}

/-! ## Vertices and their numbers -/

/-- `x` is the number of a vertex of `S`. -/
def At (S : Set (Fin n)) (x : ℕ) : Prop :=
  ∃ u ∈ S, x = (u : ℕ) + 1

def EdgeAt (G : SimpleGraph (Fin n)) (x y : ℕ) : Prop :=
  ∃ u v, G.Adj u v ∧ x = (u : ℕ) + 1 ∧ y = (v : ℕ) + 1

/-- The numbers of equal vertices or of vertices joined outside `S`. -/
def JoinedAt (G : SimpleGraph (Fin n)) (S : Set (Fin n)) (x y : ℕ) : Prop :=
  ∃ u v, (u = v ∨ G.JoinedBy Sᶜ u v) ∧ x = (u : ℕ) + 1 ∧ y = (v : ℕ) + 1

/-- The vertices that an interpretation guesses. -/
def guessed (n : ℕ) (I : Set Atom) : Set (Fin n) :=
  {u | Atom.pmc ((u : ℕ) + 1) ∈ I}

theorem at_succ_iff {u : Fin n} : At S ((u : ℕ) + 1) ↔ u ∈ S := by
  constructor
  · rintro ⟨v, hv, heq⟩
    obtain rfl : u = v := Fin.ext (Nat.succ_injective heq)
    exact hv
  · exact fun hu => ⟨u, hu, rfl⟩

theorem at_univ_iff : At (Set.univ : Set (Fin n)) x ↔ 1 ≤ x ∧ x ≤ n := by
  constructor
  · rintro ⟨u, -, rfl⟩
    exact ⟨Nat.le_add_left 1 _, u.isLt⟩
  · rintro ⟨h1, hn⟩
    exact ⟨⟨x - 1, by omega⟩, trivial, by dsimp only; omega⟩

theorem joinedAt_succ_iff {u v : Fin n} :
    JoinedAt G S ((u : ℕ) + 1) ((v : ℕ) + 1) ↔ u = v ∨ G.JoinedBy Sᶜ u v := by
  constructor
  · rintro ⟨a, b, h, ha, hb⟩
    obtain rfl : u = a := Fin.ext (Nat.succ_injective ha)
    obtain rfl : v = b := Fin.ext (Nat.succ_injective hb)
    exact h
  · exact fun h => ⟨u, v, h, rfl, rfl⟩

/-! ## Derivations -/

/-- The atoms that a file of facts may contain. -/
def Atom.IsInput : Atom → Prop
  | .vertices _ | .hyperedges _ | .size _ | .edge _ _ | .inedge _ _ => True
  | _ => False

/-- The shape of the two encodings. -/
structure IsEncoding (enc : Statement Atom → Prop) : Prop where
  common : ∀ s, CommonRule s → enc s
  rule : ∀ head pos neg, enc (.rule head pos neg) → CommonRule (.rule head pos neg) ∨
    ∃ z, head = .hyper z ∨ head = .covered z
  choice : ∀ els bound body, enc (.choice els bound body) → ∀ a cond, (a, cond) ∈ els →
    ∃ z, (a = .pmc z ∧ cond = .vertex z) ∨ (a = .selected z ∧ cond = .hyper z)

/-- The facts describe a graph. -/
structure IsInstance (G : SimpleGraph (Fin n)) (facts : List Atom) : Prop where
  input : ∀ a ∈ facts, a.IsInput
  vertices : ∀ N, Atom.vertices N ∈ facts ↔ N = n
  edge : ∀ x y, EdgeAt G x y ↔ Atom.edge x y ∈ facts ∨ Atom.edge y x ∈ facts

theorem derives_fact (h : a ∈ facts) : Derives (program enc facts) I a :=
  Derives.fact (Or.inr ⟨a, h, rfl⟩)

/-- An atom is a fact, or the head of a rule, or chosen. -/
theorem derives_program_iff : Derives (program enc facts) I a ↔ a ∈ facts ∨
    (∃ pos neg, enc (.rule a pos neg) ∧ (∀ b ∈ pos, Derives (program enc facts) I b) ∧
      ∀ b ∈ neg, b ∉ I) ∨
    ∃ els bound body cond, enc (.choice els bound body) ∧ (a, cond) ∈ els ∧
      (∀ b ∈ body, Derives (program enc facts) I b) ∧
      Derives (program enc facts) I cond ∧ a ∈ I := by
  constructor
  · intro h
    cases h with
    | rule hmem hpos hneg =>
        rcases hmem with henc | ⟨b, hb, heq⟩
        · exact Or.inr (Or.inl ⟨_, _, henc, hpos, hneg⟩)
        · rw [Statement.rule.injEq] at heq
          exact Or.inl (heq.1 ▸ hb)
    | choice hmem ha hbody hcond hin =>
        rcases hmem with henc | ⟨b, hb, heq⟩
        · exact Or.inr (Or.inr ⟨_, _, _, _, henc, ha, hbody, hcond, hin⟩)
        · cases heq
  · rintro (h | ⟨pos, neg, henc, hpos, hneg⟩ |
      ⟨els, bound, body, cond, henc, ha, hbody, hcond, hin⟩)
    · exact derives_fact h
    · exact Derives.rule (Or.inl henc) hpos hneg
    · exact Derives.choice (Or.inl henc) ha hbody hcond hin

section Common

variable (henc : IsEncoding enc) (hfacts : IsInstance G facts)

include henc in
/-- An atom of an input predicate other than `edge` is derived only as a fact. -/
theorem derives_input_iff (ha : a.IsInput) (hedge : ∀ x y, a ≠ .edge x y) :
    Derives (program enc facts) I a ↔ a ∈ facts := by
  rw [derives_program_iff]
  constructor
  · rintro (h | ⟨pos, neg, hrule, -⟩ | ⟨els, bound, body, cond, hchoice, hmem, -⟩)
    · exact h
    · rcases henc.rule a pos neg hrule with hcommon | ⟨z, rfl | rfl⟩
      · cases hcommon with
        | edge x y => exact absurd rfl (hedge x y)
        | _ => cases ha
      · cases ha
      · cases ha
    · obtain ⟨z, ⟨rfl, -⟩ | ⟨rfl, -⟩⟩ := henc.choice els bound body hchoice a cond hmem
      · cases ha
      · cases ha
  · exact Or.inl

include henc hfacts in
theorem derives_vertices_iff :
    Derives (program enc facts) I (.vertices x) ↔ x = n := by
  rw [derives_input_iff henc (a := .vertices x) trivial (by simp), hfacts.vertices]

include henc hfacts in
theorem derives_vertex_iff :
    Derives (program enc facts) I (.vertex x) ↔ At (Set.univ : Set (Fin n)) x := by
  rw [derives_program_iff, at_univ_iff]
  constructor
  · rintro (h | ⟨pos, neg, hrule, hpos, -⟩ | ⟨els, bound, body, cond, hchoice, hmem, -⟩)
    · exact absurd (hfacts.input _ h) id
    · rcases henc.rule _ pos neg hrule with hcommon | ⟨z, h | h⟩
      · cases hcommon with
        | vertex hx hN =>
            have hv := hpos _ (List.mem_singleton_self _)
            rw [derives_vertices_iff henc hfacts] at hv
            exact ⟨hx, hv ▸ hN⟩
      · cases h
      · cases h
    · obtain ⟨z, ⟨h, -⟩ | ⟨h, -⟩⟩ := henc.choice els bound body hchoice _ cond hmem
      · cases h
      · cases h
  · rintro ⟨h1, hn⟩
    refine Or.inr (Or.inl ⟨_, _, henc.common _ (.vertex h1 hn), ?_, by simp⟩)
    intro b hb
    rw [List.mem_singleton.mp hb]
    exact (derives_vertices_iff henc hfacts).mpr rfl

include henc hfacts in
theorem derives_edge_iff :
    Derives (program enc facts) I (.edge x y) ↔ EdgeAt G x y := by
  constructor
  · intro h
    generalize ha : Atom.edge x y = a at h
    induction h generalizing x y with
    | rule hmem hpos hneg ih =>
        subst ha
        rcases hmem with hrule | ⟨b, hb, heq⟩
        · rcases henc.rule _ _ _ hrule with hcommon | ⟨z, h | h⟩
          · cases hcommon with
            | edge x y =>
                obtain ⟨u, v, huv, hy, hx⟩ := ih _ (List.mem_singleton_self _) rfl
                exact ⟨v, u, huv.symm, hx, hy⟩
          · cases h
          · cases h
        · rw [Statement.rule.injEq] at heq
          exact (hfacts.edge x y).mpr (Or.inl (heq.1 ▸ hb))
    | choice hmem ha' hbody hcond hin =>
        subst ha
        rcases hmem with hchoice | ⟨b, hb, heq⟩
        · obtain ⟨z, ⟨h, -⟩ | ⟨h, -⟩⟩ := henc.choice _ _ _ hchoice _ _ ha'
          · cases h
          · cases h
        · cases heq
  · intro h
    rcases (hfacts.edge x y).mp h with hmem | hmem
    · exact derives_fact hmem
    · refine Derives.rule (Or.inl (henc.common _ (.edge x y))) ?_ (by simp)
      intro b hb
      rw [List.mem_singleton.mp hb]
      exact derives_fact hmem

include henc hfacts in
/-- The predicate `c` holds of the pairs joined outside the guessed set. -/
theorem derives_c_iff :
    Derives (program enc facts) I (.c x y) ↔ JoinedAt G (guessed n I) x y := by
  constructor
  · intro h
    generalize ha : Atom.c x y = a at h
    induction h generalizing x y with
    | rule hmem hpos hneg ih =>
        subst ha
        rcases hmem with hrule | ⟨b, hb, heq⟩
        · rcases henc.rule _ _ _ hrule with hcommon | ⟨z, h | h⟩
          · cases hcommon with
            | refl x =>
                have hv := hpos _ (List.mem_singleton_self _)
                rw [derives_vertex_iff henc hfacts] at hv
                obtain ⟨u, -, hu⟩ := hv
                exact ⟨u, u, Or.inl rfl, hu, hu⟩
            | start x y =>
                have he := hpos _ (List.mem_singleton_self _)
                rw [derives_edge_iff henc hfacts] at he
                obtain ⟨u, v, huv, hx, hy⟩ := he
                exact ⟨u, v, Or.inr (Or.inl huv), hx, hy⟩
            | step x y z =>
                -- The path goes on past `z`, which is not guessed.
                have he := hpos (.edge z y) (by simp)
                rw [derives_edge_iff henc hfacts] at he
                obtain ⟨w, v, hwv, rfl, hy⟩ := he
                have hw : w ∈ (guessed n I)ᶜ := hneg (.pmc ((w : ℕ) + 1)) (by simp)
                obtain ⟨u, w', huw, hx, hw'⟩ := ih (.c x ((w : ℕ) + 1)) (by simp) rfl
                obtain rfl : w = w' := Fin.ext (Nat.succ_injective hw')
                refine ⟨u, v, Or.inr ?_, hx, hy⟩
                rcases huw with rfl | huw
                · exact Or.inl hwv
                · apply (huw.trans (Or.inl hwv)).mono
                  exact Set.insert_subset hw subset_rfl
          · cases h
          · cases h
        · rw [Statement.rule.injEq] at heq
          exact absurd (hfacts.input _ (heq.1 ▸ hb)) id
    | choice hmem ha' hbody hcond hin =>
        subst ha
        rcases hmem with hchoice | ⟨b, hb, heq⟩
        · obtain ⟨z, ⟨h, -⟩ | ⟨h, -⟩⟩ := henc.choice _ _ _ hchoice _ _ ha'
          · cases h
          · cases h
        · cases heq
  · rintro ⟨u, v, huv, rfl, rfl⟩
    have hrefl : Derives (program enc facts) I (.c ((u : ℕ) + 1) ((u : ℕ) + 1)) := by
      refine Derives.rule (Or.inl (henc.common _ (.refl _))) ?_ (by simp)
      intro b hb
      rw [List.mem_singleton.mp hb, derives_vertex_iff henc hfacts]
      exact ⟨u, trivial, rfl⟩
    have hedge : ∀ z y : Fin n, G.Adj z y →
        Derives (program enc facts) I (.edge ((z : ℕ) + 1) ((y : ℕ) + 1)) :=
      fun z y hzy => (derives_edge_iff henc hfacts).mpr ⟨z, y, hzy, rfl, rfl⟩
    have hstart : ∀ y : Fin n, G.Adj u y →
        Derives (program enc facts) I (.c ((u : ℕ) + 1) ((y : ℕ) + 1)) := by
      intro y huy
      refine Derives.rule (Or.inl (henc.common _ (.start _ _))) ?_ (by simp)
      intro b hb
      rw [List.mem_singleton.mp hb]
      exact hedge u y huy
    have hstep : ∀ z y : Fin n, z ∈ (guessed n I)ᶜ → G.Adj z y →
        Derives (program enc facts) I (.c ((u : ℕ) + 1) ((z : ℕ) + 1)) →
        Derives (program enc facts) I (.c ((u : ℕ) + 1) ((y : ℕ) + 1)) := by
      intro z y hz hzy hc
      refine Derives.rule (Or.inl (henc.common _ (.step _ _ ((z : ℕ) + 1)))) ?_ ?_
      · intro b hb
        rw [List.mem_cons, List.mem_singleton] at hb
        rcases hb with rfl | rfl
        · exact hc
        · exact hedge z y hzy
      · intro b hb
        rw [List.mem_singleton.mp hb]
        exact hz
    rcases huv with rfl | huv
    · exact hrefl
    · obtain ⟨z, huz, hzv⟩ := joinedBy_iff_reachIn.mp huv
      have hreach : ∀ y, G.ReachIn (guessed n I)ᶜ u y → y = u ∨ y ∈ (guessed n I)ᶜ ∧
          Derives (program enc facts) I (.c ((u : ℕ) + 1) ((y : ℕ) + 1)) := by
        intro y hy
        apply hy.mem_of_closed (A := {y | y = u ∨ y ∈ (guessed n I)ᶜ ∧
          Derives (program enc facts) I (.c ((u : ℕ) + 1) ((y : ℕ) + 1))}) (Or.inl rfl)
        rintro w (rfl | ⟨hw, hc⟩) y hy hwy
        · exact Or.inr ⟨hy, hstart y hwy⟩
        · exact Or.inr ⟨hy, hstep w y hw hwy hc⟩
      rcases hreach z huz with rfl | ⟨hz, hc⟩
      · exact hstart v hzv
      · exact hstep z v hz hzv hc

include henc hfacts in
theorem derives_d_iff : Derives (program enc facts) I (.d x y) ↔
    At (Set.univ : Set (Fin n)) x ∧ Atom.c x y ∉ I ∧
      Derives (program enc facts) I (.pmc y) := by
  rw [derives_program_iff]
  constructor
  · rintro (h | ⟨pos, neg, hrule, hpos, hneg⟩ | ⟨els, bound, body, cond, hchoice, hmem, -⟩)
    · exact absurd (hfacts.input _ h) id
    · rcases henc.rule _ pos neg hrule with hcommon | ⟨z, h | h⟩
      · cases hcommon with
        | apart x y =>
            refine ⟨?_, hneg _ (by simp), hpos _ (by simp)⟩
            exact (derives_vertex_iff henc hfacts).mp (hpos _ (by simp))
      · cases h
      · cases h
    · obtain ⟨z, ⟨h, -⟩ | ⟨h, -⟩⟩ := henc.choice els bound body hchoice _ cond hmem
      · cases h
      · cases h
  · rintro ⟨hx, hc, hy⟩
    refine Or.inr (Or.inl ⟨_, _, henc.common _ (.apart x y), ?_, ?_⟩)
    · intro b hb
      rw [List.mem_cons, List.mem_singleton] at hb
      rcases hb with rfl | rfl
      · exact (derives_vertex_iff henc hfacts).mpr hx
      · exact hy
    · intro b hb
      rw [List.mem_singleton.mp hb]
      exact hc

/-- The atoms of both encodings that hold when `S` is guessed. -/
def commonHolds (G : SimpleGraph (Fin n)) (S : Set (Fin n)) : Atom → Prop
  | .vertices N => N = n
  | .edge x y => EdgeAt G x y
  | .vertex x => At (Set.univ : Set (Fin n)) x
  | .pmc x => At S x
  | .c x y => JoinedAt G S x y
  | .d x y => At (Set.univ : Set (Fin n)) x ∧ ¬JoinedAt G S x y ∧ At S y
  | _ => False

/-- The predicates defined by both encodings. -/
def Atom.IsCommon : Atom → Prop
  | .vertices _ | .edge _ _ | .vertex _ | .pmc _ | .c _ _ | .d _ _ => True
  | _ => False

include henc hfacts in
theorem derives_common_iff (ha : a.IsCommon)
    (hpmc : ∀ x, Derives (program enc facts) I (.pmc x) ↔ At (guessed n I) x)
    (hc : ∀ x y, Atom.c x y ∈ I ↔ JoinedAt G (guessed n I) x y) :
    Derives (program enc facts) I a ↔ commonHolds G (guessed n I) a := by
  cases a with
  | vertices N => exact derives_vertices_iff henc hfacts
  | edge x y => exact derives_edge_iff henc hfacts
  | vertex x => exact derives_vertex_iff henc hfacts
  | pmc x => exact hpmc x
  | c x y => exact derives_c_iff henc hfacts
  | d x y =>
      rw [derives_d_iff henc hfacts, hpmc, hc]
      rfl
  | _ => cases ha

include henc hfacts in
/-- The guess is derived when the encoding chooses among the vertices. -/
theorem derives_pmc_iff {bound : Option ℕ} {body : List Atom}
    (hguess : enc (.choice {p | ∃ x, p = (.pmc x, .vertex x)} bound body))
    (hbody : ∀ b ∈ body, b ∈ facts) :
    Derives (program enc facts) I (.pmc x) ↔ At (guessed n I) x := by
  rw [derives_program_iff]
  constructor
  · rintro (h | ⟨pos, neg, hrule, -⟩ |
      ⟨els, bound, body, cond, hchoice, hmem, -, hcond, hin⟩)
    · exact absurd (hfacts.input _ h) id
    · rcases henc.rule _ pos neg hrule with hcommon | ⟨z, h | h⟩
      · cases hcommon
      · cases h
      · cases h
    · obtain ⟨z, ⟨h, rfl⟩ | ⟨h, -⟩⟩ := henc.choice els bound body hchoice _ cond hmem
      · obtain rfl := Atom.pmc.inj h
        obtain ⟨u, -, rfl⟩ := (derives_vertex_iff henc hfacts).mp hcond
        exact ⟨u, hin, rfl⟩
      · cases h
  · rintro ⟨u, hu, rfl⟩
    refine Or.inr (Or.inr ⟨_, _, _, _, hguess, ⟨_, rfl⟩, ?_, ?_, hu⟩)
    · exact fun b hb => derives_fact (hbody b hb)
    · exact (derives_vertex_iff henc hfacts).mpr ⟨u, trivial, rfl⟩

end Common

/-- The common tests accept the potential maximal cliques. -/
theorem admits_common_iff
    (hvertices : ∀ N, Atom.vertices N ∈ I ↔ N = n)
    (hpmc : ∀ x, Atom.pmc x ∈ I ↔ At (guessed n I) x)
    (hc : ∀ x y, Atom.c x y ∈ I ↔ JoinedAt G (guessed n I) x y)
    (hd : ∀ x y, Atom.d x y ∈ I ↔ At (Set.univ : Set (Fin n)) x ∧ Atom.c x y ∉ I ∧
      Atom.pmc y ∈ I) :
    (∀ s, CommonRule s → s.Admits I) ↔ G.IsPmc (guessed n I) := by
  rw [isPmc_iff_joinedBy]
  constructor
  · intro h
    constructor
    · intro u hu
      have htest := h _ (.testApart (x := (u : ℕ) + 1) (Nat.le_add_left 1 _) u.isLt)
      by_contra hall
      push Not at hall
      apply htest
      refine ⟨?_, ?_, ?_⟩
      · intro b hb
        rw [List.mem_singleton.mp hb, hvertices]
      · intro b hb
        rw [List.mem_singleton.mp hb, hpmc, at_succ_iff]
        exact hu
      · -- No guessed vertex is apart from `u`.
        intro cnt hcnt
        rw [List.mem_singleton.mp hcnt, Count.Holds, Nat.cast_zero, Set.encard_eq_zero,
          Set.eq_empty_iff_forall_notMem]
        rintro t ⟨cond, hcond, y, heq⟩
        obtain ⟨-, rfl⟩ := Prod.mk.inj heq
        obtain ⟨-, hnc, hy⟩ := (hd _ y).mp hcond
        obtain ⟨v, hv, rfl⟩ := (hpmc y).mp hy
        exact hnc ((hc _ _).mpr (joinedAt_succ_iff.mpr (Or.inr (hall v hv))))
    · intro u hu v hv huv
      by_contra hno
      apply h _ (.testJoined ((u : ℕ) + 1) ((v : ℕ) + 1))
      refine ⟨?_, ?_, by simp⟩
      · intro b hb
        rw [List.mem_cons, List.mem_singleton] at hb
        rcases hb with rfl | rfl
        · exact hu
        · exact hv
      · intro b hb
        rw [List.mem_singleton.mp hb, hc, joinedAt_succ_iff]
        exact fun hor => hor.elim huv hno
  · rintro ⟨hfull, hclique⟩ s hs
    cases hs with
    | testJoined x y =>
        rintro ⟨hpos, hneg, -⟩
        obtain ⟨u, hu, rfl⟩ := (hpmc x).mp (hpos _ (by simp))
        obtain ⟨v, hv, rfl⟩ := (hpmc y).mp (hpos _ (by simp))
        apply hneg _ (List.mem_singleton_self _)
        rw [hc, joinedAt_succ_iff]
        by_cases huv : u = v
        · exact Or.inl huv
        · exact Or.inr (hclique u hu v hv huv)
    | @testApart x N hx hN =>
        rintro ⟨hpos, hneg, hcount⟩
        have hNn := (hvertices N).mp (hpos _ (List.mem_singleton_self _))
        obtain ⟨u, -, rfl⟩ := at_univ_iff.mpr ⟨hx, hNn ▸ hN⟩
        have hu : u ∉ guessed n I := hneg _ (List.mem_singleton_self _)
        obtain ⟨v, hv, hno⟩ := hfull u hu
        have hzero := hcount _ (List.mem_singleton_self _)
        rw [Count.Holds, Nat.cast_zero, Set.encard_eq_zero] at hzero
        have hmem : Atom.vertex ((v : ℕ) + 1) ∈ (∅ : Set Atom) := by
          rw [← hzero]
          refine ⟨.d ((u : ℕ) + 1) ((v : ℕ) + 1), ?_, _, rfl⟩
          rw [hd, hc, joinedAt_succ_iff, hpmc, at_succ_iff, at_succ_iff]
          refine ⟨trivial, ?_, hv⟩
          rintro (rfl | hjoin)
          · exact hu hv
          · exact hno hjoin
        exact hmem
    | _ => trivial

theorem edgeAt_iff {g : Graph n} (hg : g.Valid) : EdgeAt g.toSimple x y ↔
    Atom.edge x y ∈ g.edges.map (fun e => Atom.edge ((e.1 : ℕ) + 1) ((e.2 : ℕ) + 1)) ∨
    Atom.edge y x ∈ g.edges.map (fun e => Atom.edge ((e.1 : ℕ) + 1) ((e.2 : ℕ) + 1)) := by
  simp only [List.mem_map, hg.mem_edges, Atom.edge.injEq]
  constructor
  · rintro ⟨u, v, huv, rfl, rfl⟩
    rcases lt_or_gt_of_ne huv.ne with hlt | hlt
    · exact Or.inl ⟨(u, v), ⟨huv, hlt⟩, rfl, rfl⟩
    · exact Or.inr ⟨(v, u), ⟨huv.symm, hlt⟩, rfl, rfl⟩
  · rintro (⟨e, ⟨hadj, -⟩, h1, h2⟩ | ⟨e, ⟨hadj, -⟩, h1, h2⟩)
    · exact ⟨e.1, e.2, hadj, h1.symm, h2.symm⟩
    · exact ⟨e.2, e.1, hadj.symm, h2.symm, h1.symm⟩

/-- The bound of a choice among numbered vertices. -/
theorem admits_choice_iff {size : ℕ} (p cond : ℕ → Atom) (hp : Function.Injective p)
    (hin : ∀ x, p x ∈ I ↔ At S x) (hcond : ∀ u : Fin n, cond ((u : ℕ) + 1) ∈ I)
    (hsize : ∀ K, Atom.size K ∈ I ↔ K = size) :
    (∀ K, (Statement.choice {q | ∃ x, q = (p x, cond x)} (some K) [.size K]).Admits I) ↔
      S.ncard = size := by
  have himage : {a | a ∈ I ∧ ∃ b ∈ I,
      (a, b) ∈ {q : Atom × Atom | ∃ x, q = (p x, cond x)}} =
        (fun u : Fin n => p ((u : ℕ) + 1)) '' S := by
    ext a
    constructor
    · rintro ⟨ha, b, -, x, heq⟩
      obtain ⟨rfl, rfl⟩ := Prod.mk.inj heq
      obtain ⟨u, hu, rfl⟩ := (hin x).mp ha
      exact ⟨u, hu, rfl⟩
    · rintro ⟨u, hu, rfl⟩
      exact ⟨(hin _).mpr (at_succ_iff.mpr hu), _, hcond u, _, rfl⟩
  have hinj : Function.Injective fun u : Fin n => p ((u : ℕ) + 1) := by
    intro u v huv
    exact Fin.ext (Nat.succ_injective (hp huv))
  have hcard := (hinj.encard_image S).trans (Set.Finite.cast_ncard_eq (Set.toFinite S)).symm
  constructor
  · intro h
    have hs := h size size rfl (by simp [hsize])
    rw [himage, hcard] at hs
    exact_mod_cast hs
  · intro h K k hk hbody
    obtain rfl : K = k := Option.some.inj hk
    have hK := (hsize K).mp (hbody _ (by simp))
    rw [himage, hcard, h, hK]

/-! ## The encoding for treewidth -/

section Treewidth

variable {g : Graph n} {size : ℕ}

def treewidthHolds (g : Graph n) (size : ℕ) (S : Set (Fin n)) : Atom → Prop
  | .size K => K = size
  | a => commonHolds g.toSimple S a

/-- The answer set that guesses `S`. -/
def treewidthModel (g : Graph n) (size : ℕ) (S : Set (Fin n)) : Set Atom :=
  {a | treewidthHolds g size S a}

theorem isEncoding_treewidth : IsEncoding TreewidthRule where
  common := fun _ h => .common h
  rule := by
    intro head pos neg h
    cases h with
    | common h => exact Or.inl h
  choice := by
    intro els bound body h a cond hmem
    cases h with
    | common h => cases h
    | guess K =>
        obtain ⟨z, heq⟩ := hmem
        obtain ⟨rfl, rfl⟩ := Prod.mk.inj heq
        exact ⟨z, Or.inl ⟨rfl, rfl⟩⟩

theorem isInstance_treewidth (hg : g.Valid) (size : ℕ) :
    IsInstance g.toSimple (treewidthFacts g size) where
  input := by
    intro a ha
    rw [treewidthFacts, List.mem_cons, List.mem_cons] at ha
    rcases ha with rfl | rfl | ha
    · trivial
    · trivial
    · obtain ⟨e, -, rfl⟩ := List.mem_map.mp ha
      trivial
  vertices := by simp [treewidthFacts]
  edge := by
    intro x y
    rw [edgeAt_iff hg]
    simp [treewidthFacts]

theorem derives_treewidth_iff (hg : g.Valid)
    (hc : ∀ x y, Atom.c x y ∈ I ↔ JoinedAt g.toSimple (guessed n I) x y) (a : Atom) :
    Derives (program TreewidthRule (treewidthFacts g size)) I a ↔
      treewidthHolds g size (guessed n I) a := by
  have henc := isEncoding_treewidth
  have hfacts := isInstance_treewidth hg size
  have hpmc : ∀ x, Derives (program TreewidthRule (treewidthFacts g size)) I (.pmc x) ↔
      At (guessed n I) x := fun x =>
    derives_pmc_iff henc hfacts (.guess size) (by simp [treewidthFacts])
  have hinput : ∀ a : Atom, a.IsInput → (∀ x y, a ≠ .edge x y) →
      (Derives (program TreewidthRule (treewidthFacts g size)) I a ↔
        a ∈ treewidthFacts g size) := fun a ha hedge => derives_input_iff henc ha hedge
  have hnone : ∀ a : Atom, ¬a.IsInput → ¬a.IsCommon →
      ¬Derives (program TreewidthRule (treewidthFacts g size)) I a := by
    intro a hin hcommon
    rw [derives_program_iff]
    rintro (h | ⟨pos, neg, hrule, -⟩ | ⟨els, bound, body, cond, hchoice, hmem, -⟩)
    · exact hin (hfacts.input a h)
    · cases hrule with
      | common h =>
          cases h with
          | edge => exact hin trivial
          | _ => exact hcommon trivial
    · cases hchoice with
      | common h => cases h
      | guess K =>
          obtain ⟨z, heq⟩ := hmem
          obtain ⟨rfl, -⟩ := Prod.mk.inj heq
          exact hcommon trivial
  cases a with
  | size K =>
      rw [hinput (.size K) trivial (by simp)]
      simp [treewidthFacts, treewidthHolds]
  | hyperedges N =>
      rw [hinput (.hyperedges N) trivial (by simp)]
      simp [treewidthFacts, treewidthHolds, commonHolds]
  | inedge x y =>
      rw [hinput (.inedge x y) trivial (by simp)]
      simp [treewidthFacts, treewidthHolds, commonHolds]
  | hyper x => exact iff_of_false (hnone _ id id) id
  | selected x => exact iff_of_false (hnone _ id id) id
  | covered x => exact iff_of_false (hnone _ id id) id
  | _ => exact derives_common_iff henc hfacts trivial hpmc hc

theorem guessed_treewidthModel (S : Set (Fin n)) :
    guessed n (treewidthModel g size S) = S := by
  ext u
  exact at_succ_iff

/-- The answer sets guess the potential maximal cliques of the given size. -/
theorem isAnswerSet_treewidth_iff (hg : g.Valid) :
    IsAnswerSet (program TreewidthRule (treewidthFacts g size)) I ↔
      ∃ S : Set (Fin n), I = treewidthModel g size S ∧ g.toSimple.IsPmc S ∧
        S.ncard = size := by
  have henc := isEncoding_treewidth
  have hfacts := isInstance_treewidth hg size
  have hmodel : ∀ I : Set Atom, I = treewidthModel g size (guessed n I) →
      ((∀ s ∈ program TreewidthRule (treewidthFacts g size), s.Admits I) ↔
        g.toSimple.IsPmc (guessed n I) ∧ (guessed n I).ncard = size) := by
    intro I hI
    have hholds : ∀ a, a ∈ I ↔ treewidthHolds g size (guessed n I) a := by
      intro a
      rw [Set.ext_iff] at hI
      exact hI a
    have hcommon := admits_common_iff (I := I) (n := n)
      (fun N => hholds (.vertices N)) (fun x => hholds (.pmc x))
      (fun x y => hholds (.c x y)) (fun x y => by
        rw [hholds (.d x y), hholds (.c x y), hholds (.pmc y)]
        rfl)
    have hbound : (∀ K, (Statement.choice {p | ∃ x, p = (Atom.pmc x, Atom.vertex x)}
        (some K) [.size K]).Admits I) ↔ (guessed n I).ncard = size :=
      admits_choice_iff Atom.pmc Atom.vertex (fun _ _ h => Atom.pmc.inj h)
        (fun x => hholds (.pmc x)) (fun u => (hholds _).mpr ⟨u, trivial, rfl⟩)
        fun K => hholds (.size K)
    rw [← hcommon, ← hbound]
    constructor
    · exact fun h => ⟨fun s hs => h s (Or.inl (.common hs)), fun K => h _ (Or.inl (.guess K))⟩
    · rintro ⟨h1, h2⟩ s (hs | ⟨a, -, rfl⟩)
      · cases hs with
        | common h => exact h1 s h
        | guess K => exact h2 K
      · trivial
  constructor
  · intro h
    have hc : ∀ x y, Atom.c x y ∈ I ↔ JoinedAt g.toSimple (guessed n I) x y := by
      intro x y
      rw [← h.derives_iff]
      exact derives_c_iff henc hfacts
    have hI : I = treewidthModel g size (guessed n I) := by
      ext a
      rw [← h.derives_iff, derives_treewidth_iff hg hc]
      rfl
    exact ⟨guessed n I, hI, (hmodel I hI).mp h.admits⟩
  · rintro ⟨S, rfl, hS⟩
    have hguess : guessed n (treewidthModel g size S) = S := guessed_treewidthModel S
    constructor
    · intro a
      rw [derives_treewidth_iff hg fun x y => by rw [hguess]; rfl, hguess]
      rfl
    · rw [hmodel _ (by rw [hguess]), hguess]
      exact hS

end Treewidth

/-! ## The encoding for hypertree width -/

section Hypertreewidth

variable {h : HyperGraph n} {size : ℕ} {T : Set (Fin h.edges.length)}

/-- The numbers of a vertex and of a hyperedge that contains it. -/
def InedgeAt (h : HyperGraph n) (x y : ℕ) : Prop :=
  ∃ (v : Fin n) (j : Fin h.edges.length), v ∈ h.edges.get j ∧ x = (v : ℕ) + 1 ∧
    y = (j : ℕ) + 1

/-- The hyperedges that an interpretation selects. -/
def selectedIn (h : HyperGraph n) (I : Set Atom) : Set (Fin h.edges.length) :=
  {j | Atom.selected ((j : ℕ) + 1) ∈ I}

def hypertreewidthHolds (h : HyperGraph n) (size : ℕ) (S : Set (Fin n))
    (T : Set (Fin h.edges.length)) : Atom → Prop
  | .hyperedges N => N = h.edges.length
  | .size K => K = size
  | .inedge x y => InedgeAt h x y
  | .hyper x => At (Set.univ : Set (Fin h.edges.length)) x
  | .selected x => At T x
  | .covered x => ∃ y, InedgeAt h x y ∧ At T y
  | a => commonHolds h.primal.toSimple S a

/-- The answer set that guesses `S` and selects `T`. -/
def hypertreewidthModel (h : HyperGraph n) (size : ℕ) (S : Set (Fin n))
    (T : Set (Fin h.edges.length)) : Set Atom :=
  {a | hypertreewidthHolds h size S T a}

theorem isEncoding_hypertreewidth : IsEncoding HypertreewidthRule where
  common := fun _ h => .common h
  rule := by
    intro head pos neg h
    cases h with
    | common h => exact Or.inl h
    | hyper => exact Or.inr ⟨_, Or.inl rfl⟩
    | covered => exact Or.inr ⟨_, Or.inr rfl⟩
  choice := by
    intro els bound body h a cond hmem
    cases h with
    | common h => cases h
    | select K =>
        obtain ⟨z, heq⟩ := hmem
        obtain ⟨rfl, rfl⟩ := Prod.mk.inj heq
        exact ⟨z, Or.inr ⟨rfl, rfl⟩⟩
    | guess =>
        obtain ⟨z, heq⟩ := hmem
        obtain ⟨rfl, rfl⟩ := Prod.mk.inj heq
        exact ⟨z, Or.inl ⟨rfl, rfl⟩⟩

/-- The facts about the hyperedges. -/
theorem mem_inedgeFacts : Atom.inedge x y ∈ h.edges.zipIdx.flatMap (fun p =>
    p.1.map fun v : Fin n => Atom.inedge ((v : ℕ) + 1) (p.2 + 1)) ↔ InedgeAt h x y := by
  simp only [List.mem_flatMap, List.mem_map, Atom.inedge.injEq]
  constructor
  · rintro ⟨p, hp, v, hv, hx, hy⟩
    obtain ⟨hj, heq⟩ := List.getElem?_eq_some_iff.mp (List.mem_zipIdx_iff_getElem?.mp hp)
    have hget : h.edges.get ⟨p.2, hj⟩ = p.1 := heq
    exact ⟨v, ⟨p.2, hj⟩, hget ▸ hv, hx.symm, hy.symm⟩
  · rintro ⟨v, j, hv, rfl, rfl⟩
    exact ⟨(h.edges.get j, j), List.mem_zipIdx_iff_getElem?.mpr
      (List.getElem?_eq_getElem j.isLt), v, hv, rfl, rfl⟩

theorem isInstance_hypertreewidth (hh : h.Valid) (size : ℕ) :
    IsInstance h.primal.toSimple (hypertreewidthFacts h size) where
  input := by
    intro a ha
    simp only [hypertreewidthFacts, List.mem_cons, List.mem_append] at ha
    rcases ha with rfl | rfl | rfl | ha | ha
    · trivial
    · trivial
    · trivial
    · obtain ⟨p, -, hp⟩ := List.mem_flatMap.mp ha
      obtain ⟨v, -, rfl⟩ := List.mem_map.mp hp
      trivial
    · obtain ⟨e, -, rfl⟩ := List.mem_map.mp ha
      trivial
  vertices := by simp [hypertreewidthFacts]
  edge := by
    intro x y
    rw [edgeAt_iff hh.primal]
    simp [hypertreewidthFacts]

theorem derives_hyper_iff (hh : h.Valid) :
    Derives (program HypertreewidthRule (hypertreewidthFacts h size)) I (.hyper x) ↔
      At (Set.univ : Set (Fin h.edges.length)) x := by
  have henc := isEncoding_hypertreewidth
  have hedges : ∀ N, Derives (program HypertreewidthRule (hypertreewidthFacts h size)) I
      (.hyperedges N) ↔ N = h.edges.length := by
    intro N
    rw [derives_input_iff henc (a := .hyperedges N) trivial (by simp)]
    simp [hypertreewidthFacts]
  rw [derives_program_iff, at_univ_iff]
  constructor
  · rintro (h | ⟨pos, neg, hrule, hpos, -⟩ | ⟨els, bound, body, cond, hchoice, hmem, -⟩)
    · exact absurd ((isInstance_hypertreewidth hh size).input _ h) id
    · cases hrule with
      | common h => cases h
      | hyper hx hN =>
          have hm := hpos _ (List.mem_singleton_self _)
          rw [hedges] at hm
          exact ⟨hx, hm ▸ hN⟩
    · obtain ⟨z, ⟨h, -⟩ | ⟨h, -⟩⟩ := henc.choice els bound body hchoice _ cond hmem
      · cases h
      · cases h
  · rintro ⟨h1, hn⟩
    refine Or.inr (Or.inl ⟨_, _, .hyper h1 hn, ?_, by simp⟩)
    intro b hb
    rw [List.mem_singleton.mp hb, hedges]

theorem derives_selected_iff (hh : h.Valid) :
    Derives (program HypertreewidthRule (hypertreewidthFacts h size)) I (.selected x) ↔
      At (selectedIn h I) x := by
  rw [derives_program_iff]
  constructor
  · rintro (h | ⟨pos, neg, hrule, -⟩ |
      ⟨els, bound, body, cond, hchoice, hmem, -, hcond, hin⟩)
    · exact absurd ((isInstance_hypertreewidth hh size).input _ h) id
    · cases hrule with
      | common h => cases h
    · obtain ⟨z, ⟨h, -⟩ | ⟨h, rfl⟩⟩ :=
        isEncoding_hypertreewidth.choice els bound body hchoice _ cond hmem
      · cases h
      · obtain rfl := Atom.selected.inj h
        obtain ⟨j, -, rfl⟩ := (derives_hyper_iff hh).mp hcond
        exact ⟨j, hin, rfl⟩
  · rintro ⟨j, hj, rfl⟩
    refine Or.inr (Or.inr ⟨_, _, _, _, .select size, ⟨_, rfl⟩, ?_, ?_, hj⟩)
    · intro b hb
      rw [List.mem_singleton.mp hb]
      exact derives_fact (by simp [hypertreewidthFacts])
    · exact (derives_hyper_iff hh).mpr ⟨j, trivial, rfl⟩

theorem derives_inedge_iff {y : ℕ} :
    Derives (program HypertreewidthRule (hypertreewidthFacts h size)) I (.inedge x y) ↔
      InedgeAt h x y := by
  rw [derives_input_iff isEncoding_hypertreewidth (a := .inedge x y) trivial (by simp),
    ← mem_inedgeFacts]
  simp [hypertreewidthFacts]

theorem derives_covered_iff (hh : h.Valid) :
    Derives (program HypertreewidthRule (hypertreewidthFacts h size)) I (.covered x) ↔
      ∃ y, InedgeAt h x y ∧ At (selectedIn h I) y := by
  rw [derives_program_iff]
  constructor
  · rintro (h | ⟨pos, neg, hrule, hpos, -⟩ | ⟨els, bound, body, cond, hchoice, hmem, -⟩)
    · exact absurd ((isInstance_hypertreewidth hh size).input _ h) id
    · cases hrule with
      | common h => cases h
      | covered x y =>
          exact ⟨y, derives_inedge_iff.mp (hpos _ (by simp)),
            (derives_selected_iff hh).mp (hpos _ (by simp))⟩
    · obtain ⟨z, ⟨h, -⟩ | ⟨h, -⟩⟩ :=
        isEncoding_hypertreewidth.choice els bound body hchoice _ cond hmem
      · cases h
      · cases h
  · rintro ⟨y, hxy, hy⟩
    refine Or.inr (Or.inl ⟨_, _, .covered x y, ?_, by simp⟩)
    intro b hb
    rw [List.mem_cons, List.mem_singleton] at hb
    rcases hb with rfl | rfl
    · exact derives_inedge_iff.mpr hxy
    · exact (derives_selected_iff hh).mpr hy

theorem derives_hypertreewidth_iff (hh : h.Valid)
    (hc : ∀ x y, Atom.c x y ∈ I ↔ JoinedAt h.primal.toSimple (guessed n I) x y) (a : Atom) :
    Derives (program HypertreewidthRule (hypertreewidthFacts h size)) I a ↔
      hypertreewidthHolds h size (guessed n I) (selectedIn h I) a := by
  have henc := isEncoding_hypertreewidth
  have hfacts := isInstance_hypertreewidth hh size
  have hpmc : ∀ x, Derives (program HypertreewidthRule (hypertreewidthFacts h size)) I
      (.pmc x) ↔ At (guessed n I) x := fun x =>
    derives_pmc_iff henc hfacts .guess (by simp)
  cases a with
  | hyperedges N =>
      rw [derives_input_iff henc (a := .hyperedges N) trivial (by simp)]
      simp [hypertreewidthFacts, hypertreewidthHolds]
  | size K =>
      rw [derives_input_iff henc (a := .size K) trivial (by simp)]
      simp [hypertreewidthFacts, hypertreewidthHolds]
  | inedge x y => exact derives_inedge_iff
  | hyper x => exact derives_hyper_iff hh
  | selected x => exact derives_selected_iff hh
  | covered x => exact derives_covered_iff hh
  | _ => exact derives_common_iff henc hfacts trivial hpmc hc

theorem guessed_hypertreewidthModel (S : Set (Fin n)) (T : Set (Fin h.edges.length)) :
    guessed n (hypertreewidthModel h size S T) = S := by
  ext u
  exact at_succ_iff

/-- The answer sets guess a potential maximal clique and select a cover of it. -/
theorem isAnswerSet_hypertreewidth_iff (hh : h.Valid) :
    IsAnswerSet (program HypertreewidthRule (hypertreewidthFacts h size)) I ↔
      ∃ (S : Set (Fin n)) (T : Set (Fin h.edges.length)),
        I = hypertreewidthModel h size S T ∧ h.primal.toSimple.IsPmc S ∧
          T.ncard = size ∧ ∀ v ∈ S, ∃ j ∈ T, v ∈ h.edges.get j := by
  have henc := isEncoding_hypertreewidth
  have hfacts := isInstance_hypertreewidth hh size
  have hmodel : ∀ I : Set Atom,
      I = hypertreewidthModel h size (guessed n I) (selectedIn h I) →
      ((∀ s ∈ program HypertreewidthRule (hypertreewidthFacts h size), s.Admits I) ↔
        h.primal.toSimple.IsPmc (guessed n I) ∧ (selectedIn h I).ncard = size ∧
          ∀ v ∈ guessed n I, ∃ j ∈ selectedIn h I, v ∈ h.edges.get j) := by
    intro I hI
    have hholds : ∀ a, a ∈ I ↔
        hypertreewidthHolds h size (guessed n I) (selectedIn h I) a := by
      intro a
      rw [Set.ext_iff] at hI
      exact hI a
    have hcommon := admits_common_iff (I := I) (n := n)
      (fun N => hholds (.vertices N)) (fun x => hholds (.pmc x))
      (fun x y => hholds (.c x y)) (fun x y => by
        rw [hholds (.d x y), hholds (.c x y), hholds (.pmc y)]
        rfl)
    have hbound : (∀ K, (Statement.choice
        {p | ∃ x, p = (Atom.selected x, Atom.hyper x)} (some K) [.size K]).Admits I) ↔
          (selectedIn h I).ncard = size :=
      admits_choice_iff Atom.selected Atom.hyper (fun _ _ h => Atom.selected.inj h)
        (fun x => hholds (.selected x)) (fun u => (hholds _).mpr ⟨u, trivial, rfl⟩)
        fun K => hholds (.size K)
    have hcover : (∀ x, (Statement.constraint [Atom.pmc x] [Atom.covered x] []).Admits I) ↔
        ∀ v ∈ guessed n I, ∃ j ∈ selectedIn h I, v ∈ h.edges.get j := by
      have hcov : ∀ v : Fin n, Atom.covered ((v : ℕ) + 1) ∈ I ↔
          ∃ j ∈ selectedIn h I, v ∈ h.edges.get j := by
        intro v
        rw [hholds]
        constructor
        · rintro ⟨y, ⟨u, j, hu, hv, rfl⟩, hj⟩
          obtain rfl : v = u := Fin.ext (Nat.succ_injective hv)
          exact ⟨j, at_succ_iff.mp hj, hu⟩
        · rintro ⟨j, hj, hv⟩
          exact ⟨_, ⟨v, j, hv, rfl, rfl⟩, at_succ_iff.mpr hj⟩
      constructor
      · intro h v hv
        by_contra hno
        apply h ((v : ℕ) + 1)
        refine ⟨?_, ?_, by simp⟩
        · intro b hb
          rw [List.mem_singleton.mp hb]
          exact hv
        · intro b hb
          rw [List.mem_singleton.mp hb, hcov]
          exact hno
      · rintro h x ⟨hpos, hneg, -⟩
        obtain ⟨v, hv, rfl⟩ := (hholds (.pmc x)).mp (hpos _ (List.mem_singleton_self _))
        exact hneg _ (List.mem_singleton_self _) ((hcov v).mpr (h v hv))
    rw [← hcommon, ← hbound, ← hcover]
    constructor
    · exact fun h => ⟨fun s hs => h s (Or.inl (.common hs)),
        fun K => h _ (Or.inl (.select K)), fun x => h _ (Or.inl (.testCovered x))⟩
    · rintro ⟨h1, h2, h3⟩ s (hs | ⟨a, -, rfl⟩)
      · cases hs with
        | common h => exact h1 s h
        | select K => exact h2 K
        | testCovered x => exact h3 x
        | hyper => trivial
        | covered => trivial
        | guess => exact fun k hk => by cases hk
      · trivial
  constructor
  · intro hI
    have hc : ∀ x y, Atom.c x y ∈ I ↔ JoinedAt h.primal.toSimple (guessed n I) x y := by
      intro x y
      rw [← hI.derives_iff]
      exact derives_c_iff henc hfacts
    have heq : I = hypertreewidthModel h size (guessed n I) (selectedIn h I) := by
      ext a
      rw [← hI.derives_iff, derives_hypertreewidth_iff hh hc]
      rfl
    exact ⟨guessed n I, selectedIn h I, heq, (hmodel I heq).mp hI.admits⟩
  · rintro ⟨S, T, rfl, hST⟩
    have hguess : guessed n (hypertreewidthModel h size S T) = S :=
      guessed_hypertreewidthModel S T
    have hselect : selectedIn h (hypertreewidthModel h size S T) = T := by
      ext j
      exact at_succ_iff
    constructor
    · intro a
      rw [derives_hypertreewidth_iff hh fun x y => by rw [hguess]; rfl, hguess, hselect]
      rfl
    · rw [hmodel _ (by rw [hguess, hselect]), hguess, hselect]
      exact hST

end Hypertreewidth

end AspEnumerator

end Triangulator
