import Triangulator.Logic.AnswerSet
import Triangulator.Model.Io

/-!
# Enumeration by answer set programming

A translation of `asp_enumerator.cpp` and of the encodings in `solvers/clingo`.  The
variables of a rule range over the natural numbers, and each ground instance is a
statement of its own.  A line of a file is a list of characters.
-/

namespace Triangulator

open AnswerSet

namespace AspEnumerator

/-! ## The encodings -/

/-- The ground atoms of the two encodings. -/
inductive Atom where
  | vertices (N : ℕ)
  | hyperedges (N : ℕ)
  | size (K : ℕ)
  | edge (x y : ℕ)
  | inedge (x y : ℕ)
  | vertex (x : ℕ)
  | hyper (x : ℕ)
  | selected (x : ℕ)
  | pmc (x : ℕ)
  | covered (x : ℕ)
  | c (x y : ℕ)
  | d (x y : ℕ)
  deriving DecidableEq

/-- The rules that both encodings contain. -/
inductive CommonRule : Statement Atom → Prop
  /-- `vertex(X) :- X = 1..N, vertices(N).` -/
  | vertex {x N : ℕ} (hx : 1 ≤ x) (hN : x ≤ N) :
      CommonRule (.rule (.vertex x) [.vertices N] [])
  /-- `edge(X,Y) :- edge(Y,X).` -/
  | edge (x y : ℕ) : CommonRule (.rule (.edge x y) [.edge y x] [])
  /-- `c(X,X) :- vertex(X).` -/
  | refl (x : ℕ) : CommonRule (.rule (.c x x) [.vertex x] [])
  /-- `c(X,Y) :- edge(X,Y).` -/
  | start (x y : ℕ) : CommonRule (.rule (.c x y) [.edge x y] [])
  /-- `c(X,Y) :- c(X,Z), not pmc(Z), edge(Z,Y).` -/
  | step (x y z : ℕ) : CommonRule (.rule (.c x y) [.c x z, .edge z y] [.pmc z])
  /-- `d(X,Y) :- vertex(X), not c(X,Y), pmc(Y).` -/
  | apart (x y : ℕ) : CommonRule (.rule (.d x y) [.vertex x, .pmc y] [.c x y])
  /-- `:- pmc(X), pmc(Y), not c(X,Y).` -/
  | testJoined (x y : ℕ) : CommonRule (.constraint [.pmc x, .pmc y] [.c x y] [])
  /-- `:- not pmc(X), 0 = #count { vertex(Y) : d(X,Y) }, X = 1..N, vertices(N).` -/
  | testApart {x N : ℕ} (hx : 1 ≤ x) (hN : x ≤ N) :
      CommonRule (.constraint [.vertices N] [.pmc x]
        [⟨{p | ∃ y, p = (.vertex y, .d x y)}, 0⟩])

/-- The rules of `treewidth_encoding.lp`. -/
inductive TreewidthRule : Statement Atom → Prop
  | common {s : Statement Atom} (h : CommonRule s) : TreewidthRule s
  /-- `{ pmc(X) : vertex(X) } = K :- size(K).` -/
  | guess (K : ℕ) : TreewidthRule
      (.choice {p | ∃ x, p = (.pmc x, .vertex x)} (some K) [.size K])

/-- The rules of `hypertreewidth_encoding.lp`. -/
inductive HypertreewidthRule : Statement Atom → Prop
  | common {s : Statement Atom} (h : CommonRule s) : HypertreewidthRule s
  /-- `hyper(X) :- X = 1..N, hyperedges(N).` -/
  | hyper {x N : ℕ} (hx : 1 ≤ x) (hN : x ≤ N) :
      HypertreewidthRule (.rule (.hyper x) [.hyperedges N] [])
  /-- `{ selected(X) : hyper(X) } = K :- size(K).` -/
  | select (K : ℕ) : HypertreewidthRule
      (.choice {p | ∃ x, p = (.selected x, .hyper x)} (some K) [.size K])
  /-- `{ pmc(X) : vertex(X) }.` -/
  | guess : HypertreewidthRule (.choice {p | ∃ x, p = (.pmc x, .vertex x)} none [])
  /-- `covered(X) :- inedge(X, Y), selected(Y).` -/
  | covered (x y : ℕ) : HypertreewidthRule
      (.rule (.covered x) [.inedge x y, .selected y] [])
  /-- `:- not covered(X), pmc(X).` -/
  | testCovered (x : ℕ) : HypertreewidthRule (.constraint [.pmc x] [.covered x] [])

/-- The program of an encoding and the facts of the instance file. -/
def program (encoding : Statement Atom → Prop) (facts : List Atom) :
    Set (Statement Atom) :=
  {s | encoding s ∨ ∃ a ∈ facts, s = .rule a [] []}

variable {n : ℕ}

/-- The facts that `TreewidthPmcs` writes, one in each line. -/
def treewidthFacts (g : Graph n) (size : ℕ) : List Atom :=
  .vertices n :: .size size ::
    g.edges.map fun e => .edge ((e.1 : ℕ) + 1) ((e.2 : ℕ) + 1)

/-- The facts that `HypertreewidthPmcs` writes, one in each line. -/
def hypertreewidthFacts (h : HyperGraph n) (size : ℕ) : List Atom :=
  .vertices n :: .hyperedges h.edges.length :: .size size ::
    ((h.edges.zipIdx.flatMap fun p => p.1.map fun v : Fin n => .inedge ((v : ℕ) + 1) (p.2 + 1)) ++
      h.primal.edges.map fun e => .edge ((e.1 : ℕ) + 1) ((e.2 : ℕ) + 1))

/-! ## Reading the answers -/

/-- The digits at the front of a text. -/
def stoiDigits (s : List Char) : Option ℕ :=
  if (s.takeWhile Char.isDigit).isEmpty then none
  else some (Nat.ofDigitChars 10 (s.takeWhile Char.isDigit) 0)

/-- `std::stoi`, which skips the characters of `isspace` and throws on a text without a
number after them. -/
def stoi (s : List Char) : Option ℤ :=
  match s.dropWhile Io.isSpace with
  | '-' :: t => (stoiDigits t).map fun k => -(k : ℤ)
  | '+' :: t => (stoiDigits t).map fun k => (k : ℤ)
  | t => (stoiDigits t).map fun k => (k : ℤ)

/-- The local variables of the loop over the characters of an answer. -/
structure ParseState (n : ℕ) where
  paren : Bool
  num : List Char
  pmc : List (Fin n)

/-- The body of the loop over the characters of an answer. -/
def parseChar (s : ParseState n) (c : Char) : Option (ParseState n) :=
  if c = '(' then some { s with num := [], paren := true }
  else if c = ')' then
    if s.paren then do
      let tv ← stoi s.num
      let tv := tv - 1
      if h : 0 ≤ tv ∧ tv.toNat < n then
        some { s with pmc := s.pmc ++ [⟨tv.toNat, h.2⟩], paren := false }
      else none
    else none
  else if s.paren then some { s with num := s.num ++ [c] }
  else some s

/-- The vertices of the line after a line with `Answer:`. -/
def parseAnswer (n : ℕ) (tmp : List Char) : Option (List (Fin n)) :=
  if 6 ≤ tmp.length then do
    let s ← tmp.foldlM parseChar ⟨false, [], []⟩
    if s.paren = false ∧ 0 < s.pmc.length then some s.pmc else none
  else none

/-- The test for a line that announces an answer. -/
def isAnswerLine (tmp : List Char) : Bool :=
  decide (7 < tmp.length) && decide (tmp.take 7 = "Answer:".toList)

/-- The loop over the lines of the output file. -/
def readAnswers (n : ℕ) : List (List Char) → Option (List (List (Fin n)))
  | [] => some []
  | [tmp] => if isAnswerLine tmp then none else some []
  | tmp :: line :: rest =>
      if isAnswerLine tmp then do
        let pmc ← parseAnswer n line
        let ret ← readAnswers n rest
        pure (pmc :: ret)
      else readAnswers n (line :: rest)

/-- `TreewidthPmcs`, where `clingo` gives the lines printed for a program. -/
def treewidthPmcs (clingo : Set (Statement Atom) → List (List Char)) (g : Graph n)
    (size : ℕ) : Option (List (List (Fin n))) :=
  readAnswers n (clingo (program TreewidthRule (treewidthFacts g size)))

/-- `HypertreewidthPmcs`. -/
def hypertreewidthPmcs (clingo : Set (Statement Atom) → List (List Char))
    (h : HyperGraph n) (size : ℕ) : Option (List (List (Fin n))) := do
  let ret ← readAnswers n (clingo (program HypertreewidthRule (hypertreewidthFacts h size)))
  pure (sortAndDedup (ret.map sort))

end AspEnumerator

end Triangulator
