import Triangulator.Model.Graph

/-!
# The Bouchitté-Todinca algorithm

A translation of `bt_algorithm.cpp` and `id_set.hpp`.  A failed assertion is
`none`.  `IdSet::IdOf` dereferences the end iterator on a missing key; in the
model it returns `none`, the dynamic program reads `none` as a missing child,
and every key that is looked up is recorded.
-/

namespace Triangulator

/-! ## Identifiers -/

/-- `IdSet`: the map from elements to identifiers and the elements in order of
insertion. -/
structure IdSet (α : Type) where
  ids : List (α × ℕ)
  elements : List α

namespace IdSet

variable {α : Type} [DecidableEq α]

def empty : IdSet α :=
  ⟨[], []⟩

/-- `IdSet::Insert`. -/
def insert (s : IdSet α) (element : α) : ℕ × IdSet α :=
  match s.ids.lookup element with
  | some id => (id, s)
  | none =>
      (s.elements.length,
        ⟨(element, s.elements.length) :: s.ids, s.elements ++ [element]⟩)

/-- `IdSet::Get`. -/
def get [Inhabited α] (s : IdSet α) (i : ℕ) : α :=
  s.elements.getD i default

/-- `IdSet::IdOf`, with `none` for a key that is not in the map. -/
def idOf (s : IdSet α) (element : α) : Option ℕ :=
  s.ids.lookup element

end IdSet

/-- A behaviour of `std::sort` with a comparator that compares a numeric key:
some rearrangement with nondecreasing keys, with ties in any order. -/
structure KeySort where
  run : {α : Type} → (α → ℕ) → List α → List α
  perm : ∀ {α : Type} (key : α → ℕ) (l : List α), (run key l).Perm l
  sorted : ∀ {α : Type} (key : α → ℕ) (l : List α),
    (run key l).Pairwise fun a b => key a ≤ key b

/-- The stable behaviour. -/
def KeySort.stable : KeySort where
  run := fun key l => l.insertionSort fun a b => key a ≤ key b
  perm := fun _ _ => List.perm_insertionSort _ _
  sorted := fun key l => by
    have : IsTrans _ fun a b => key a ≤ key b := ⟨fun _ _ _ => le_trans⟩
    have : Std.Total fun a b => key a ≤ key b := ⟨fun a b => le_total (key a) (key b)⟩
    exact List.pairwise_insertionSort _ l

namespace BtAlgorithm

variable {n : ℕ}

/-- `BtAlgorithm::MergeCost`. -/
def mergeCost (c1 c2 : ℤ) : ℤ :=
  max c1 c2

/-- `BtAlgorithm::CliqueCost`. -/
def cliqueCost (pmc : List (Fin n)) : ℤ :=
  (pmc.length : ℤ) - 1

/-! ## The triplets -/

/-- The tables filled by the first loop of `Solve`: triplets of a PMC index, a
separator identifier and a component identifier. -/
structure Tables (n : ℕ) where
  triplets : List (ℕ × ℕ × ℕ)
  separators : IdSet (List (Fin n))
  components : IdSet (List (Fin n))

/-- The loop that finds the component of the rest of the PMC: the last component
found and the number of components found. -/
def restComponent (g : Graph n) (pmc : List (Fin n)) (inSeparator : Fin n → Bool) :
    List (Fin n) × ℕ :=
  (pmc.foldl
    (fun (s : (Fin n → Bool) × List (Fin n) × ℕ) v =>
      if s.1 v then s
      else
        let r := g.findComponentAndMark v s.1
        (r.1, r.2, s.2.2 + 1))
    (inSeparator, [], 0)).2

/-- The body of the loop over the components outside the PMC. -/
def addOutComponent (g : Graph n) (i : ℕ) (pmc : List (Fin n)) (t : Tables n)
    (outComponent : List (Fin n)) : Option (Tables n) :=
  let separator := g.neighbors outComponent
  if separator.length < pmc.length then
    let rest := restComponent g pmc (mark (fun _ => false) separator)
    if rest.2 = 1 then
      let sep := t.separators.insert (sort separator)
      let comp := t.components.insert (sort rest.1)
      some
        { triplets := t.triplets ++ [(i, sep.1, comp.1)]
          separators := sep.2
          components := comp.2 }
    else none
  else none

/-- The body of the loop over the PMCs. -/
def addPmc (g : Graph n) (noneSepId allCompId : ℕ) (t : Tables n)
    (entry : List (Fin n) × ℕ) : Option (Tables n) := do
  let t ← (g.components entry.1).foldlM (addOutComponent g entry.2 entry.1) t
  pure { t with triplets := t.triplets ++ [(entry.2, noneSepId, allCompId)] }

/-- The tables before the first PMC, with the empty separator and the set of all
vertices inserted first. -/
def initTables (n : ℕ) : Tables n where
  triplets := []
  separators := (IdSet.empty.insert []).2
  components := (IdSet.empty.insert (List.finRange n)).2

def noneSepId (n : ℕ) : ℕ :=
  ((IdSet.empty : IdSet (List (Fin n))).insert []).1

def allCompId (n : ℕ) : ℕ :=
  ((IdSet.empty : IdSet (List (Fin n))).insert (List.finRange n)).1

/-- The first loop of `Solve`. -/
def buildTables (g : Graph n) (pmcs : List (List (Fin n))) : Option (Tables n) :=
  pmcs.zipIdx.foldlM (addPmc g (noneSepId n) (allCompId n)) (initTables n)

/-- The size by which the triplets are sorted. -/
def tripletSize (t : Tables n) (triplet : ℕ × ℕ × ℕ) : ℕ :=
  (t.separators.get triplet.2.1).length + (t.components.get triplet.2.2).length

/-! ## The dynamic program -/

/-- The keys of one child block: its separator and its component. -/
abbrev Lookup (n : ℕ) :=
  List (Fin n) × List (Fin n)

/-- The state of a child block, if both keys are present. -/
def childState (t : Tables n) (key : Lookup n) : Option (ℕ × ℕ) :=
  match t.separators.idOf key.1, t.components.idOf key.2 with
  | some s, some c => some (s, c)
  | _, _ => none

/-- The keys of the child block found from `v`, and the new bitmap. -/
def childKey (g : Graph n) (v : Fin n) (inPmc : Fin n → Bool) :
    (Fin n → Bool) × Lookup n :=
  let child := g.findComponentAndMark v inPmc
  (child.1, (sort (g.neighbors child.2), sort child.2))

/-- `dp` and `opt_choice`. -/
structure DpState where
  dp : ℕ × ℕ → Option ℤ
  optChoice : ℕ × ℕ → ℕ

/-- The loop over the vertices of the component: the cost, or `none` when a child
is missing, and the keys looked up. -/
def childrenCost (g : Graph n) (t : Tables n) (dp : ℕ × ℕ → Option ℤ) :
    List (Fin n) → (Fin n → Bool) → ℤ → Option ℤ × List (Lookup n)
  | [], _, cost => (some cost, [])
  | v :: vs, inPmc, cost =>
      if inPmc v then childrenCost g t dp vs inPmc cost
      else
        let child := childKey g v inPmc
        match (childState t child.2).bind dp with
        | some c =>
            let r := childrenCost g t dp vs child.1 (mergeCost cost c)
            (r.1, child.2 :: r.2)
        | none => (none, [child.2])

/-- The test `!dp.count(this_state) || cost < dp[this_state]`. -/
def improves : Option ℤ → ℤ → Bool
  | none, _ => true
  | some old, cost => decide (cost < old)

/-- The body of the dynamic-programming loop. -/
def processTriplet (g : Graph n) (pmcs : List (List (Fin n))) (t : Tables n)
    (s : DpState × List (Lookup n)) (triplet : ℕ × ℕ × ℕ) :
    DpState × List (Lookup n) :=
  let pmc := pmcs.getD triplet.1 []
  let component := t.components.get triplet.2.2
  let r := childrenCost g t s.1.dp component (mark (fun _ => false) pmc)
    (cliqueCost pmc)
  let lookups := s.2 ++ r.2
  match r.1 with
  | none => (s.1, lookups)
  | some cost =>
      if improves (s.1.dp triplet.2) cost then
        ({ dp := Function.update s.1.dp triplet.2 (some cost)
           optChoice := Function.update s.1.optChoice triplet.2 triplet.1 }, lookups)
      else (s.1, lookups)

/-- The dynamic-programming loop over the sorted triplets. -/
def runDp (g : Graph n) (pmcs : List (List (Fin n))) (t : Tables n)
    (triplets : List (ℕ × ℕ × ℕ)) : DpState × List (Lookup n) :=
  triplets.foldl (processTriplet g pmcs t) (⟨fun _ => none, fun _ => 0⟩, [])

/-! ## The reconstruction -/

/-- The pairs of the PMC that become fill edges: not adjacent and not both in
the separator. -/
def fillPairs (g : Graph n) (separator : List (Fin n)) :
    List (Fin n) → List (Fin n × Fin n)
  | [] => []
  | u :: us =>
      ((us.filter fun v => !g.hasEdge u v &&
          (!decide (u ∈ separator) || !decide (v ∈ separator))).map fun v => (u, v)) ++
        fillPairs g separator us

/-- The loop that pushes the child states, with the keys looked up. -/
def pushChildren (g : Graph n) (t : Tables n) (dp : ℕ × ℕ → Option ℤ) :
    List (Fin n) → (Fin n → Bool) → Option (List (ℕ × ℕ) × List (Lookup n))
  | [], _ => some ([], [])
  | v :: vs, inPmc =>
      if inPmc v then pushChildren g t dp vs inPmc
      else do
        let child := childKey g v inPmc
        let state ← childState t child.2
        if (dp state).isSome then
          let r ← pushChildren g t dp vs child.1
          pure (state :: r.1, child.2 :: r.2)
        else none

/-- The queue loop of the reconstruction, with a bound on the number of
rounds. -/
def reconstruct (g : Graph n) (pmcs : List (List (Fin n))) (t : Tables n)
    (d : DpState) : ℕ → List (ℕ × ℕ) → Option (List (Fin n × Fin n) × List (Lookup n))
  | _, [] => some ([], [])
  | 0, _ :: _ => none
  | fuel + 1, state :: queue =>
      if (d.dp state).isSome then do
        let pmc := pmcs.getD (d.optChoice state) []
        let separator := t.separators.get state.1
        let component := t.components.get state.2
        let children ← pushChildren g t d.dp component (mark (fun _ => false) pmc)
        let r ← reconstruct g pmcs t d fuel (queue ++ children.1)
        pure (fillPairs g separator pmc ++ r.1, children.2 ++ r.2)
      else none

/-- The result of `Solve`, the keys looked up on the way and the tables they were
looked up in. -/
structure Run (n : ℕ) where
  cost : ℤ
  fillEdges : List (Fin n × Fin n)
  lookups : List (Lookup n)
  tables : Tables n

/-- `BtAlgorithm::Solve`.  The reconstruction visits every vertex set of a block
once, so it needs at most one round for each vertex. -/
def run (ks : KeySort) (g : Graph n) (pmcs : List (List (Fin n))) :
    Option (Run n) := do
  let t ← buildTables g pmcs
  let r := runDp g pmcs t (ks.run (tripletSize t) t.triplets)
  match r.1.dp (noneSepId n, allCompId n) with
  | none => pure ⟨-1, [], r.2, t⟩
  | some c => do
      let f ← reconstruct g pmcs t r.1 (n + 1) [(noneSepId n, allCompId n)]
      pure ⟨c, f.1, r.2 ++ f.2, t⟩

/-- The value returned by `BtAlgorithm::Solve`. -/
def solve (ks : KeySort) (g : Graph n) (pmcs : List (List (Fin n))) :
    Option (ℤ × List (Fin n × Fin n)) :=
  (run ks g pmcs).map fun r => (r.cost, r.fillEdges)

end BtAlgorithm

end Triangulator
