import Triangulator.Model.Graph
import Triangulator.Program.Abort

/-!
# Set covers

A translation of `setcover.cpp`.  A vector of the class that is indexed by elements or by
sets is a function on the numbers; entries that were never written are zero.  A loop that
fills two vectors is written as one fold for each.  The comparator of the last sort leaves
the order of equal sets open, so this sort is a parameter.
-/

namespace Triangulator

open AbortM

/-- The data members of `Setcover`. -/
structure Setcover where
  gSets : List (List ℕ)
  upperBound : ℤ
  okCover : ℤ
  tnoS : ℕ
  git : ℕ
  where_ : ℕ → List ℕ
  sets : ℕ → List ℕ
  cv : List ℕ
  opt : List ℤ
  sel : ℕ → Bool
  no : ℕ → Bool
  tno : ℕ → ℕ
  cnt : ℕ → ℕ
  plc : ℕ → ℕ
  is : ℕ → ℕ
  um : ℕ → ℕ
  heur : ℕ → ℕ
  cc : ℕ → ℕ ×ₗ ℕ

namespace Setcover

/-- The constructor. -/
def init (sets : List (List ℕ)) : Setcover where
  gSets := sets
  upperBound := 0
  okCover := 0
  tnoS := 0
  git := 1
  where_ := fun _ => []
  sets := fun _ => []
  cv := []
  opt := []
  sel := fun _ => false
  no := fun _ => false
  tno := fun _ => 0
  cnt := fun _ => 0
  plc := fun _ => 0
  is := fun _ => 0
  um := fun _ => 0
  heur := fun _ => 0
  cc := fun _ => toLex (0, 0)

/-! ## The search -/

/-- The end of `Go`, where every element is covered. -/
def leaf : AbortM Setcover Unit := do
  let s ← get
  assert (decide ((s.cv.length : ℤ) ≤ s.upperBound))
  modify fun s => { s with upperBound := s.cv.length }
  when (s.opt.length ≠ 0) do
    assert (decide (s.cv.length < s.opt.length))
  modify fun s => { s with opt := s.cv.map fun x : ℕ => (x : ℤ) }
  let s ← get
  assert (decide (0 < s.opt.length))

/-- One of the three conditions under which the loop of `Go` breaks. -/
def stops (s : Setcover) : Bool :=
  decide (s.upperBound < s.cv.length + 1) || decide (s.cv.length + 1 = s.opt.length) ||
    decide (s.opt.length ≠ 0 ∧ (s.opt.length : ℤ) ≤ s.okCover)

/-- A set joins the cover. -/
def choose (x : ℕ) (s : Setcover) : Setcover :=
  { s with sel := Function.update s.sel x true, cv := s.cv ++ [x] }

/-- A set leaves the cover and is excluded from what follows. -/
def exclude (x : ℕ) (s : Setcover) : Setcover :=
  { s with
    sel := Function.update s.sel x false
    cv := s.cv.dropLast
    no := Function.update s.no x true
    tno := Function.update s.tno s.tnoS x
    tnoS := s.tnoS + 1 }

/-- The last exclusion is undone. -/
def restore (s : Setcover) : Setcover :=
  { s with no := Function.update s.no (s.tno (s.tnoS - 1)) false, tnoS := s.tnoS - 1 }

/-- The loop of `Go` over the sets that contain an element, for the recursive call. -/
def goLoop (call : AbortM Setcover Unit) : List ℕ → AbortM Setcover Unit
  | [] => pure ()
  | x :: xs => do
      let s ← get
      if s.stops then pure ()
      else if s.no x then goLoop call xs
      else do
        modify (choose x)
        call
        modify (exclude x)
        goLoop call xs

/-- `Go(i, n)`, where `rest` is `n - i`. -/
def go : ℕ → ℕ → AbortM Setcover Unit
  | _, 0 => leaf
  | i, rest + 1 => do
      let s ← get
      if (s.where_ i).any s.sel then go (i + 1) rest
      else do
        goLoop (go (i + 1) rest) (s.where_ i)
        modify fun t => restore^[t.tnoS - s.tnoS] t

/-! ## The preparation -/

/-- The places of the elements of the universe, and their stamps. -/
def place (universe' : List ℕ) (s : Setcover) : Setcover :=
  { s with
    plc := universe'.zipIdx.foldl (fun plc p => Function.update plc p.1 p.2) s.plc
    is := universe'.foldl (fun is e => Function.update is e s.git) s.is }

/-- The places of the elements of a set that belong to the universe. -/
def trace (s : Setcover) (set : List ℕ) : List ℕ :=
  (set.filter fun e => s.is e = s.git).map s.plc

/-- The body of the loop over `g_sets_`; `m` sets have been kept so far. -/
def traceRound (n m : ℕ) (set : List ℕ) : AbortM Setcover ℕ := do
  modify fun s => { s with sets := Function.update s.sets m (s.trace set) }
  let s ← get
  if 0 < (s.sets m).length then do
    assert (decide ((s.sets m).IsChain (· < ·)))
    assert ((s.sets m).all fun e => decide (e < n))
    pure (m + 1)
  else pure m

/-- The first `m` sets without repetitions. -/
def uniqueSets (m : ℕ) : AbortM Setcover ℕ := do
  let s ← get
  let sets := sortAndDedup ((List.range m).map s.sets)
  modify fun s => { s with sets := fun i => sets.getD i (s.sets i) }
  assert (decide (sets.length ≤ s.gSets.length))
  assert (decide (sets.IsChain (· < ·)))
  pure sets.length

/-- In how many sets every element lies. -/
def count (m n : ℕ) (s : Setcover) : Setcover :=
  { s with
    cnt := (List.range m).foldl
      (fun cnt i => (s.sets i).foldl (fun cnt x => Function.update cnt x (cnt x + 1)) cnt)
      fun i => if i < n then 0 else s.cnt i }

/-- The elements in the order of their counts. -/
def sortCounts (n : ℕ) : AbortM Setcover Unit := do
  forM (List.range n) fun i => do
    let s ← get
    assert (decide (0 < s.cnt i))
    modify fun s => { s with cc := Function.update s.cc i (toLex (s.cnt i, i)) }
  modify fun s =>
    { s with cc := fun i => (sort ((List.range n).map s.cc)).getD i (s.cc i) }

/-- The new numbers of the elements. -/
def renumber (n : ℕ) (s : Setcover) : Setcover :=
  { s with
    um := (List.range n).foldl (fun um i => Function.update um (ofLex (s.cc i)).2 i) s.um
    where_ := fun i => if i < n then [] else s.where_ i }

/-- The sets in the new numbers, and the sets that contain each element. -/
def relabel (m : ℕ) (s : Setcover) : Setcover :=
  { s with
    sets := fun i => if i < m then sort ((s.sets i).map s.um) else s.sets i
    where_ := (List.range m).foldl
      (fun where_ i => ((s.sets i).map s.um).foldl
        (fun where_ x => Function.update where_ x (where_ x ++ [i])) where_)
      s.where_ }

/-- The value that orders the sets that contain the element `i`: the number of its
elements from `i` on. -/
def orderRound (i x : ℕ) : AbortM Setcover Unit := do
  let s ← get
  let f := (s.sets x).length - (s.sets x).idxOf i
  assert (decide (0 < f))
  modify fun s => { s with heur := Function.update s.heur x f }

/-- The sets that contain an element, ordered by that value. -/
def orderSets (sortBy : (ℕ → ℕ) → List ℕ → List ℕ) (i : ℕ) : AbortM Setcover Unit := do
  let s ← get
  forM (s.where_ i) (orderRound i)
  let s ← get
  assert (decide ((ofLex (s.cc i)).1 = (s.where_ i).length))
  modify fun s =>
    { s with where_ := Function.update s.where_ i (sortBy s.heur (s.where_ i)) }

/-- `Solve` up to the call of `Go`; the result is the number of elements. -/
def prepare (sortBy : (ℕ → ℕ) → List ℕ → List ℕ) (universe' : List ℕ)
    (okCover upperBound : ℤ) : AbortM Setcover ℕ := do
  modify fun s =>
    { s with git := s.git + 1, okCover := okCover, upperBound := upperBound }
  let s ← get
  assert (decide (s.okCover ≤ s.upperBound))
  let elements := sortAndDedup universe'
  let n := elements.length
  modify (place elements)
  let m ← s.gSets.foldlM (traceRound n) 0
  let m ← uniqueSets m
  modify (count m n)
  sortCounts n
  modify (renumber n)
  modify (relabel m)
  forM (List.range n) (orderSets sortBy)
  modify fun s =>
    { s with sel := fun i => if i < m then false else s.sel i, opt := [], cv := [] }
  pure n

/-- `Solve`, for the behaviour of `std::sort` with the comparator on `heur_`. -/
def solve (sortBy : (ℕ → ℕ) → List ℕ → List ℕ) (universe' : List ℕ)
    (okCover upperBound : ℤ) : AbortM Setcover (List ℤ) :=
  if universe'.length = 0 then pure []
  else do
    let n ← prepare sortBy universe' okCover upperBound
    go 0 n
    modify fun s => { s with opt := if s.opt.length = 0 then [-1] else s.opt }
    let s ← get
    pure s.opt

end Setcover

end Triangulator
