import Triangulator.Model.Sat

/-!
# Cardinality constraints

A translation of `cardinality_constraint_builder.cpp`.  A vector that is written
by index is a function on the indices.  The recursions over a range get a bound on
their depth.
-/

namespace Triangulator

open AbortM

/-! ## Cardinality networks -/

/-- The data members of `CardinalityNetworkBuilder`, apart from the solver. -/
structure CardinalityNetworkBuilder where
  freeVar : ℕ
  addVars : List Lit

namespace CardinalityNetworkBuilder

/-- The constructor. -/
def init : CardinalityNetworkBuilder := ⟨0, []⟩

/-- `Var`: the variable with an index, after creating those up to it. -/
def var (b : CardinalityNetworkBuilder) (id : ℕ) :
    SatM (Lit × CardinalityNetworkBuilder) := do
  let addVars ← (List.range (id + 1 - b.addVars.length)).foldlM
    (fun vars _ => do
      let v ← newVar
      pure (vars ++ [v]))
    b.addVars
  pure (addVars.getD id .undef, { b with addVars := addVars })

/-- `Var(free_var_++)`. -/
def nextVar (b : CardinalityNetworkBuilder) : SatM (Lit × CardinalityNetworkBuilder) := do
  let v ← b.var b.freeVar
  pure (v.1, { v.2 with freeVar := b.freeVar + 1 })

/-- The clauses between the inputs `a` and `b` of a comparator, its larger output
`hi` and its smaller output `lo`, where that is kept. -/
def addComparator (d1 d2 : Bool) (a b hi : Lit) (lo : Option Lit) : SatM Unit := do
  when d1 do
    lo.elim (pure ()) fun lo => addClause [-a, -b, lo]
    addClause [-a, hi]
    addClause [-b, hi]
  when d2 do
    addClause [a, b, -hi]
    lo.elim (pure ()) fun lo => addClause [a, -lo]
    lo.elim (pure ()) fun lo => addClause [b, -lo]

/-- The number with the lowest binary digits of `i` in reverse order, one digit
for every power of two below `n`. -/
def bitReverse (n i : ℕ) : ℕ :=
  (List.range (Nat.clog 2 n)).foldl
    (fun u j => 2 * u + if i.testBit j then 1 else 0) 0

/-- `std::swap` of two entries of a vector. -/
def swapEntries (c : ℕ → Lit) (i j : ℕ) : ℕ → Lit :=
  Function.update (Function.update c i (c j)) j (c i)

/-- The loop that moves the pairs of a vector by bit reversal. -/
def reversePairs (n : ℕ) (c : ℕ → Lit) : ℕ → Lit :=
  (List.range n).foldl
    (fun c i =>
      let u := bitReverse n i
      if i < u then
        swapEntries (swapEntries c (2 * i) (2 * u)) (2 * i + 1) (2 * u + 1)
      else c)
    c

/-- A merging round of `HMerge` on the block of length `le` at `i`. -/
def hMergeBlock (d1 d2 : Bool) (le i : ℕ) (s : (ℕ → Lit) × CardinalityNetworkBuilder) :
    SatM ((ℕ → Lit) × CardinalityNetworkBuilder) := do
  let b ← (List.range (le / 2 - 1)).foldlM
    (fun b j => do
      let lo ← b.var (b.freeVar + 2 * j + 1)
      let hi ← lo.2.var (b.freeVar + 2 * j)
      addComparator d1 d2 (s.1 (i + j + 1)) (s.1 (i + j + le / 2)) hi.1 (some lo.1)
      pure hi.2)
    s.2
  (List.range' 1 (le - 2)).foldlM
    (fun s j => do
      let v ← s.2.nextVar
      pure (Function.update s.1 (i + j) v.1, v.2))
    (s.1, b)

/-- `HMerge`; the two inputs have a power of two of entries in every call. -/
def hMerge (b : CardinalityNetworkBuilder) (A B : List Lit) (d1 d2 : Bool) :
    SatM (List Lit × CardinalityNetworkBuilder) := do
  assert (decide (A.length = B.length))
  let n := A.length
  let s ← (List.range n).foldlM
    (fun s i => do
      let hi ← s.2.nextVar
      let lo ← hi.2.nextVar
      addComparator d1 d2 (A.getD i .undef) (B.getD i .undef) hi.1 (some lo.1)
      pure (Function.update (Function.update s.1 (2 * i) hi.1) (2 * i + 1) lo.1, lo.2))
    ((fun _ => Lit.undef), b)
  let s ← (List.range (Nat.log 2 n)).foldlM
    (fun s level =>
      let le := 4 * 2 ^ level
      (List.range (2 * n / le)).foldlM (fun s k => hMergeBlock d1 d2 le (le * k) s) s)
    (reversePairs n s.1, s.2)
  pure ((List.range (2 * n)).map s.1, s.2)

/-- A merging round of `SMerge` on the block of length `le` at `i`; `oc` tells
whether the middle entry of the block is left out. -/
def sMergeBlock (d1 d2 : Bool) (le i : ℕ) (oc : Bool)
    (s : (ℕ → Lit) × CardinalityNetworkBuilder) :
    SatM ((ℕ → Lit) × CardinalityNetworkBuilder) := do
  let b ← (List.range (le / 4)).foldlM
    (fun b j => do
      if j + 1 < le / 4 || !oc then do
        let lo ← b.var (b.freeVar + 2 * j + 1)
        let hi ← lo.2.var (b.freeVar + 2 * j)
        addComparator d1 d2 (s.1 (i + j + 1)) (s.1 (i + j + le / 2)) hi.1 (some lo.1)
        pure hi.2
      else do
        let hi ← b.var (b.freeVar + 2 * j)
        addComparator d1 d2 (s.1 (i + j + 1)) (s.1 (i + j + le / 2)) hi.1 none
        pure hi.2)
    s.2
  let s ← (List.range' 1 (le / 2 - 1)).foldlM
    (fun s j => do
      let v ← s.2.nextVar
      pure (Function.update s.1 (i + j) v.1, v.2))
    (s.1, b)
  if oc then pure s
  else do
    let v ← s.2.nextVar
    pure (Function.update s.1 (i + le / 2) v.1, v.2)

/-- `SMerge`. -/
def sMerge (b : CardinalityNetworkBuilder) (A B : List Lit) (d1 d2 : Bool) :
    SatM (List Lit × CardinalityNetworkBuilder) := do
  assert (decide (A.length = B.length))
  let n := A.length
  let s ← (List.range n).foldlM
    (fun s i => do
      let hi ← s.2.nextVar
      let c := Function.update s.1 (2 * i) hi.1
      if i < n / 2 then do
        let lo ← hi.2.nextVar
        addComparator d1 d2 (A.getD i .undef) (B.getD i .undef) hi.1 (some lo.1)
        pure (Function.update c (2 * i + 1) lo.1, lo.2)
      else do
        addComparator d1 d2 (A.getD i .undef) (B.getD i .undef) hi.1 none
        pure (c, hi.2))
    ((fun _ => Lit.undef), b)
  let s ← (List.range (Nat.log 2 n)).foldlM
    (fun s level =>
      let le := 4 * 2 ^ level
      (List.range (2 * n / le)).foldlM
        (fun s k => do
          let oc := s.1 || decide (le = 2 * n)
          let r ← sMergeBlock d1 d2 le (le * k) oc s.2
          pure (!oc, r))
        s)
    (false, reversePairs n s.1, s.2)
  pure ((List.range n).map s.2.1, s.2.2)

/-- `HSort`. -/
def hSort (d1 d2 : Bool) (A : List Lit) :
    ℕ → CardinalityNetworkBuilder → ℕ → ℕ → SatM (List Lit × CardinalityNetworkBuilder)
  | 0, _, _, _ => abort
  | fuel + 1, b, l, r => do
      let le := r + 1 - l
      assert (decide (2 ≤ le))
      assert (decide (le % 2 = 0))
      if le = 2 then
        hMerge b [A.getD l .undef] [A.getD r .undef] d1 d2
      else do
        let m := (l + r) / 2
        let x ← hSort d1 d2 A fuel b l m
        let y ← hSort d1 d2 A fuel x.2 (m + 1) r
        hMerge y.2 x.1 y.1 d1 d2

/-- `Card`. -/
def card (d1 d2 : Bool) (A : List Lit) (k : ℕ) :
    ℕ → CardinalityNetworkBuilder → ℕ → ℕ → SatM (List Lit × CardinalityNetworkBuilder)
  | 0, _, _, _ => abort
  | fuel + 1, b, l, r => do
      let n := r + 1 - l
      assert (decide (n % k = 0))
      if n = k then
        hSort d1 d2 A A.length b l r
      else do
        let x ← card d1 d2 A k fuel b l (l + k - 1)
        let y ← card d1 d2 A k fuel x.2 (l + k) r
        assert (decide (x.1.length = k) && decide (y.1.length = k))
        sMerge y.2 x.1 y.1 d1 d2

/-- The loop that pads the input with false variables. -/
def pad (count : ℕ) (s : List Lit × CardinalityNetworkBuilder) :
    SatM (List Lit × CardinalityNetworkBuilder) :=
  (List.range count).foldlM
    (fun s _ => do
      let nl ← s.2.nextVar
      addClause [-nl.1]
      pure (s.1 ++ [nl.1], nl.2))
    s

/-- `EqualNetwork`. -/
def equalNetwork (b : CardinalityNetworkBuilder) (input : List Lit) :
    SatM (List Lit × CardinalityNetworkBuilder) := do
  let n := input.length
  assert (decide (0 < n))
  let k := 2 ^ Nat.clog 2 n
  let s ← pad (k - n) (input, b)
  assert (decide (s.1.length = k))
  let out ← card true true s.1 k s.1.length s.2 0 (s.1.length - 1)
  assert (decide (out.1.length = s.1.length))
  let output ← (List.range (out.1.length - n)).foldlM
    (fun output _ => do
      addClause [-(output.getLastD .undef)]
      pure output.dropLast)
    out.1
  pure (output, out.2)

/-- `AddEqual`; `2 ^ k.size` is the smallest power of two above `k`. -/
def addEqual (b : CardinalityNetworkBuilder) (input : List Lit) (k : ℕ) :
    SatM CardinalityNetworkBuilder := do
  assert (decide (0 < k) && decide (k < input.length))
  let r := if input.length - k < k then (input.map fun lit => -lit, input.length - k)
    else (input, k)
  let k2 := 2 ^ r.2.size
  let s ← pad ((k2 - r.1.length % k2) % k2) (r.1, b)
  let out ← card true true s.1 k2 s.1.length s.2 0 (s.1.length - 1)
  addClause [out.1.getD (r.2 - 1) .undef]
  addClause [-(out.1.getD r.2 .undef)]
  pure out.2

end CardinalityNetworkBuilder

/-! ## The totalizer -/

/-- The data members of `TotalizerBuilder`, apart from the solver.  `nLits` is
empty at a node where nothing was stored. -/
structure TotalizerBuilder where
  curSize : ℤ
  nLits : ℕ → List Lit
  input : List Lit

namespace TotalizerBuilder

/-- The constructor. -/
def empty : TotalizerBuilder := ⟨-1, fun _ => [], []⟩

def push (tb : TotalizerBuilder) (i : ℕ) (l : Lit) : TotalizerBuilder :=
  { tb with nLits := Function.update tb.nLits i (tb.nLits i ++ [l]) }

/-- `Init`: the outputs. -/
def init (tb : TotalizerBuilder) (input : List Lit) :
    SatM (List Lit × TotalizerBuilder) := do
  let tb := { tb with input := input }
  if input.length ≤ 1 then
    pure (input, { tb with curSize := input.length })
  else
    input.foldlM
      (fun s _ => do
        let v ← newVar
        pure (s.1 ++ [v], s.2.push 1 v))
      ([], tb.push 1 .trueLit)

/-- Stores a literal for the output `x` of a node below the root. -/
def pushOutput (ti x : ℕ) (tb : TotalizerBuilder) : SatM TotalizerBuilder :=
  if x = 0 then pure (tb.push ti .trueLit)
  else do
    let v ← newVar
    freezeVar v
    pure (tb.push ti v)

/-- The part of `BuildNode` that stores the output `x`; those of the root are
there. -/
def storeOutput (ti x : ℕ) (tb : TotalizerBuilder) : SatM TotalizerBuilder :=
  if ti = 1 then do
    assert (decide (x + 1 ≤ (tb.nLits ti).length))
    pure tb
  else do
    let tb ← tb.pushOutput ti x
    assert (decide ((tb.nLits ti).length = x + 1))
    pure tb

/-- The part of `BuildNode` that adds the clauses: `a` true inputs on the left and
`x - a` on the right are `x` true inputs. -/
def outputClauses (left right output : List Lit) (x : ℕ) : SatM Unit :=
  forM (List.range (x + 1)) fun a =>
    when (a < left.length ∧ x - a < right.length)
      (addClause [-left.getD a .undef, -right.getD (x - a) .undef, output.getD x .undef])

/-- `BuildNode`. -/
def buildNode (ti li ri x : ℕ) (tb : TotalizerBuilder) : SatM TotalizerBuilder := do
  assert (decide (1 ≤ ti) && decide (ti < li) && decide (li < ri))
  let tb ← tb.storeOutput ti x
  outputClauses (tb.nLits li) (tb.nLits ri) (tb.nLits ti) x
  pure tb

/-- What `Build` does at a leaf. -/
def buildLeaf (i l : ℕ) (tb : TotalizerBuilder) : SatM TotalizerBuilder := do
  let tb := if (tb.nLits i).length = 0 then tb.push i .trueLit else tb
  let tb := if (tb.nLits i).length = 1 then tb.push i (tb.input.getD l .undef) else tb
  assert (decide ((tb.nLits i).length = 2))
  pure tb

/-- `Build`. -/
def build (size : ℕ) : ℕ → ℕ → ℕ → ℕ → TotalizerBuilder → SatM TotalizerBuilder
  | 0, _, _, _, _ => abort
  | fuel + 1, i, l, r, tb => do
      assert (decide (1 ≤ size))
      assert (decide (l ≤ r))
      if l = r then buildLeaf i l tb
      else do
        let m := (l + r) / 2
        let tb ← build size fuel (i * 2) l m tb
        let tb ← build size fuel (i * 2 + 1) (m + 1) r tb
        let first := (tb.curSize + 1).toNat
        (List.range' first (min size (r - l + 1) + 1 - first)).foldlM
          (fun tb x => buildNode i (i * 2) (i * 2 + 1) x tb) tb

/-- `BuildToSize`. -/
def buildToSize (size : ℕ) (tb : TotalizerBuilder) : SatM TotalizerBuilder := do
  assert (decide (size ≤ tb.input.length))
  assert (decide (tb.curSize ≤ size))
  assert (decide (1 ≤ size))
  if tb.input.length ≤ 1 ∨ (size : ℤ) ≤ tb.curSize then pure tb
  else do
    let tb ← build size tb.input.length 1 0 (tb.input.length - 1) tb
    pure { tb with curSize := size }

end TotalizerBuilder

end Triangulator
