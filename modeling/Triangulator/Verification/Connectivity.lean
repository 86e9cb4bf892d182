import Triangulator.GraphTheory.Linked
import Triangulator.Verification.BasicEncoding
import Triangulator.Verification.PmcTest

/-!
# Solutions and potential maximal cliques

A solution of the basic encoding whose connectivity values are right is a potential
maximal clique, and every potential maximal clique has these values.
-/

namespace Triangulator

open SimpleGraph

/-! ## Values and solutions -/

namespace Enumerator

variable {n : ℕ} {g : Graph n} {X : Fin n → Bool} {C : Fin n → Fin n → Bool}

theorem connectedMatrix_iff_linked (hg : g.Valid) (separator : List (Fin n))
    (v u : Fin n) :
    g.connectedMatrix separator v u = true ↔ g.toSimple.Linked (vset separator) v u :=
  connectedMatrix_spec hg separator v u

/-- The set of the true selection variables. -/
def solutionSet (X : Fin n → Bool) : Set (Fin n) :=
  {i | X i = true}

/-- No pair that `C` connects is separated by `S`. -/
def Sound (g : Graph n) (S : Set (Fin n)) (C : Fin n → Fin n → Bool) : Prop :=
  ∀ i ii, i ≠ ii → C i ii = true → g.toSimple.Linked S i ii

/-- The values of a component are connected to its neighbourhood. -/
theorem Basic.connected (hg : g.Valid) (h : Basic g X C) {D : Set (Fin n)}
    (hD : g.toSimple.IsComponent (solutionSet X) D) {i ii : Fin n} (hi : i ∈ D)
    (hii : ii ∈ g.toSimple.nbhd D) : C i ii = true := by
  have hedge : ∀ a b, g.toSimple.Adj a b → C a b = true := fun a b hab =>
    h.edge a b hab.ne ((hg.adj_iff).mp hab)
  have hfalse : ∀ w ∈ D, X w = false := fun w hw =>
    Bool.not_eq_true _ ▸ hD.notMem w hw
  have hall : ∀ w ∈ D, w = i ∨ C i w = true := by
    intro w hw
    have hmem := (hD.connected i hi w hw).mem_of_closed
      (A := {w | w ∈ D ∧ (w = i ∨ C i w = true)}) ⟨hi, Or.inl rfl⟩ ?_
    · exact hmem.2
    · rintro a ⟨haD, ha⟩ b hb hab
      refine ⟨hb, ?_⟩
      by_cases hbi : b = i
      · exact Or.inl hbi
      rcases ha with rfl | ha
      · exact Or.inr (hedge a b hab)
      · by_cases hai : a = i
        · exact Or.inr (hedge i b (hai ▸ hab))
        · exact Or.inr (h.step i a (Ne.symm hai) b (hg.mem_adjList_iff.mpr hab) hbi ha
            (hfalse a haD))
  obtain ⟨hiiD, w, hw, hwii⟩ := hii
  have hne : ii ≠ i := fun he => hiiD (he ▸ hi)
  rcases hall w hw with rfl | hcw
  · exact hedge w ii hwii
  · by_cases hwi : w = i
    · exact hedge i ii (hwi ▸ hwii)
    · exact h.step i w (Ne.symm hwi) ii (hg.mem_adjList_iff.mpr hwii) hne hcw (hfalse w hw)

/-- A solution with right connectivity values is a potential maximal clique. -/
theorem Basic.isPmc (hg : g.Valid) (h : Basic g X C) (hC : Sound g (solutionSet X) C) :
    g.toSimple.IsPmc (solutionSet X) := by
  rw [isPmc_iff_linked]
  constructor
  · intro D hD hfull
    obtain ⟨i, hi⟩ := hD.nonempty
    rcases h.noFull i with hX | ⟨ii, hne, hX, hc⟩
    · exact hD.notMem i hi hX
    · have hii : ii ∈ g.toSimple.nbhd D := by
        rw [hfull]
        exact hX
      rw [h.connected hg hD hi hii] at hc
      cases hc
  · intro v hv u hu hvu
    rcases lt_or_gt_of_ne hvu with hlt | hlt
    · exact hC v u hvu (h.clique v u hlt hv hu)
    · exact (hC u v hvu.symm (h.clique u v hlt hu hv)).symm

/-- The values that belong to a potential maximal clique. -/
theorem basic_of_isPmc (hg : g.Valid) {Ω : List (Fin n)}
    (hΩ : g.toSimple.IsPmc (vset Ω)) :
    Basic g (fun i => decide (i ∈ Ω)) (g.connectedMatrix Ω) := by
  have hlink := connectedMatrix_iff_linked hg Ω
  obtain ⟨hno, hcliq⟩ := isPmc_iff_linked.mp hΩ
  refine ⟨fun i ii _ => ?_, fun i ii _ hadj => ?_, fun i ii _ iii hiii _ hc hx => ?_,
    fun i ii hlt hi hii => ?_, fun i => ?_⟩
  · rw [Bool.eq_iff_iff, hlink, hlink]
    exact ⟨Linked.symm, Linked.symm⟩
  · exact (hlink i ii).mpr (Or.inl (hg.adj_iff.mpr hadj))
  · exact (hlink i iii).mpr (((hlink i ii).mp hc).step (of_decide_eq_false (p := ii ∈ Ω) hx)
      (hg.mem_adjList_iff.mp hiii))
  · exact (hlink i ii).mpr
      (hcliq i (of_decide_eq_true (p := i ∈ Ω) hi) ii
        (of_decide_eq_true (p := ii ∈ Ω) hii) hlt.ne)
  · by_cases hi : i ∈ Ω
    · exact Or.inl (decide_eq_true hi)
    · obtain ⟨ii, hii, hnot⟩ := exists_not_linked hno (show i ∉ vset Ω from hi)
      refine Or.inr ⟨ii, fun he => hi (he ▸ hii), decide_eq_true (p := ii ∈ Ω) hii, ?_⟩
      rw [Bool.eq_false_iff, Ne, hlink]
      exact hnot

end Enumerator

end Triangulator
