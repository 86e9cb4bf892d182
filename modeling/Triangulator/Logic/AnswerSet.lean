import Mathlib

/-!
# Answer sets of ground logic programs

A program is a set of ground statements: rules with positive and negated body atoms,
choices with an optional exact bound, and constraints, which may count.  An answer set
is a set of atoms that derives exactly itself, where negated atoms and the atoms chosen
are read off the set, and that meets the bounds and the constraints.
-/

namespace AnswerSet

variable {α : Type*}

/-- The count atom `value = #count { t : c, … }` over pairs of a term and its
condition. -/
structure Count (α : Type*) where
  elements : Set (α × α)
  value : ℕ

def Count.Holds (c : Count α) (I : Set α) : Prop :=
  {t | ∃ cond ∈ I, (t, cond) ∈ c.elements}.encard = c.value

/-- A ground statement.  A choice picks any of the atoms whose condition holds, as many
as its bound says. -/
inductive Statement (α : Type*) where
  | rule (head : α) (pos neg : List α)
  | choice (elements : Set (α × α)) (bound : Option ℕ) (body : List α)
  | constraint (pos neg : List α) (counts : List (Count α))

/-- The atoms with a derivation in which negated atoms and choices are read off
`I`. -/
inductive Derives (P : Set (Statement α)) (I : Set α) : α → Prop
  | rule {head : α} {pos neg : List α} (hmem : Statement.rule head pos neg ∈ P)
      (hpos : ∀ b ∈ pos, Derives P I b) (hneg : ∀ b ∈ neg, b ∉ I) : Derives P I head
  | choice {elements : Set (α × α)} {bound : Option ℕ} {body : List α} {a cond : α}
      (hmem : Statement.choice elements bound body ∈ P) (ha : (a, cond) ∈ elements)
      (hbody : ∀ b ∈ body, Derives P I b) (hcond : Derives P I cond) (hin : a ∈ I) :
      Derives P I a

/-- What a statement asks of an answer set beyond the derivations. -/
def Statement.Admits : Statement α → Set α → Prop
  | .rule _ _ _, _ => True
  | .choice elements bound body, I => ∀ k ∈ bound, (∀ b ∈ body, b ∈ I) →
      {a | a ∈ I ∧ ∃ cond ∈ I, (a, cond) ∈ elements}.encard = k
  | .constraint pos neg counts, I =>
      ¬((∀ b ∈ pos, b ∈ I) ∧ (∀ b ∈ neg, b ∉ I) ∧ ∀ c ∈ counts, c.Holds I)

/-- The answer sets of a program. -/
structure IsAnswerSet (P : Set (Statement α)) (I : Set α) : Prop where
  derives_iff : ∀ a, Derives P I a ↔ a ∈ I
  admits : ∀ s ∈ P, s.Admits I

variable {P : Set (Statement α)} {I : Set α} {a : α}

theorem Derives.fact (h : Statement.rule a [] [] ∈ P) :
    Derives P I a :=
  Derives.rule h (by simp) (by simp)

end AnswerSet
