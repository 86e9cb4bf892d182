import Mathlib

/-!
# Programs on reused vectors

A program that ends early names the fault.  A vector that a program finds from an earlier
run is a list of any length; what the program has written into its first `n` entries is a
function on `Fin n`, and what is beyond them is a tail that no access inside the range
changes.
-/

/-- The ways in which a program ends early: an index out of range, a failed assertion, and
an exhausted bound on the rounds of a loop. -/
inductive Fault
  | index
  | assertion
  | rounds
  deriving DecidableEq

/-- The value of an optional result, with a failed assertion for a missing one. -/
def Fault.ofOption {α : Type} (o : Option α) : Except Fault α :=
  o.elim (.error .assertion) .ok

/-! ## Runs that return -/

namespace Except

variable {α β γ ι : Type} {r : Except Fault β} {P Q : β → Prop} {o : Option α}
  {R : α → β → Prop}

/-- The run returns a value with a property. -/
def Yields (r : Except Fault β) (P : β → Prop) : Prop :=
  ∃ b, r = .ok b ∧ P b

/-- The run returns a related value when there is one, and fails an assertion otherwise. -/
def Simulates (o : Option α) (r : Except Fault β) (R : α → β → Prop) : Prop :=
  o.elim (r = .error .assertion) fun a => r.Yields (R a)

theorem Yields.pure {b : β} (h : P b) : (Pure.pure b : Except Fault β).Yields P :=
  ⟨b, rfl, h⟩

theorem Yields.mono (h : r.Yields P) (hPQ : ∀ b, P b → Q b) : r.Yields Q := by
  obtain ⟨b, hr, hb⟩ := h
  exact ⟨b, hr, hPQ b hb⟩

theorem Yields.bind {f : β → Except Fault γ} {Q : γ → Prop} (h : r.Yields P)
    (hf : ∀ b, P b → (f b).Yields Q) : (r >>= f).Yields Q := by
  obtain ⟨b, rfl, hb⟩ := h
  exact hf b hb

/-- A loop keeps a relation to the state of a loop that cannot fail. -/
theorem Yields.foldlM {f : α → ι → α} {g : β → ι → Except Fault β} {l : List ι}
    (hstep : ∀ i ∈ l, ∀ a b, R a b → (g b i).Yields (R (f a i))) {a : α} {b : β}
    (h : R a b) : (l.foldlM g b).Yields (R (l.foldl f a)) := by
  induction l generalizing a b with
  | nil => exact Yields.pure h
  | cons i l ih =>
      rw [List.foldlM_cons, List.foldl_cons]
      apply (hstep i List.mem_cons_self a b h).bind
      intro b' hb'
      exact ih (fun j hj => hstep j (List.mem_cons_of_mem i hj)) hb'

/-- A loop keeps a relation to the state of a loop that returns. -/
theorem Yields.foldlM_some {f : α → ι → Option α} {g : β → ι → Except Fault β} {l : List ι}
    (hstep : ∀ i ∈ l, ∀ a b a', R a b → f a i = some a' → (g b i).Yields (R a'))
    {a a' : α} {b : β} (h : R a b) (hrun : l.foldlM f a = some a') :
    (l.foldlM g b).Yields (R a') := by
  induction l generalizing a b with
  | nil =>
      obtain rfl := Option.some.inj hrun
      exact Yields.pure h
  | cons i l ih =>
      rw [List.foldlM_cons] at hrun ⊢
      obtain ⟨a₁, hfirst, hrest⟩ := Option.bind_eq_some_iff.mp hrun
      apply (hstep i List.mem_cons_self a b a₁ h hfirst).bind
      intro b₁ hb₁
      exact ih (fun j hj => hstep j (List.mem_cons_of_mem i hj)) hb₁ hrest

theorem Simulates.yields {a : α} (h : Simulates o r R) (ho : o = some a) : r.Yields (R a) := by
  subst ho
  exact h

theorem Simulates.bind {α' : Type} {f : α → Option α'} {g : β → Except Fault γ}
    {R' : α' → γ → Prop} (h : Simulates o r R)
    (hf : ∀ a b, R a b → Simulates (f a) (g b) R') : Simulates (o >>= f) (r >>= g) R' := by
  cases o with
  | none =>
      have hr : r = .error .assertion := h
      rw [hr]
      exact rfl
  | some a =>
      obtain ⟨b, rfl, hb⟩ : r.Yields (R a) := h
      exact hf a b hb

/-- A step that returns before a simulation goes on. -/
theorem Simulates.of_yields {f : β → Except Fault γ} {o : Option α} {R : α → γ → Prop}
    (h : r.Yields P) (hf : ∀ b, P b → Simulates o (f b) R) : Simulates o (r >>= f) R := by
  obtain ⟨b, rfl, hb⟩ := h
  exact hf b hb

theorem Simulates.foldlM {f : α → ι → Option α} {g : β → ι → Except Fault β} {l : List ι}
    (hstep : ∀ i ∈ l, ∀ a b, R a b → Simulates (f a i) (g b i) R) {a : α} {b : β}
    (h : R a b) : Simulates (l.foldlM f a) (l.foldlM g b) R := by
  induction l generalizing a b with
  | nil => exact Yields.pure h
  | cons i l ih =>
      rw [List.foldlM_cons, List.foldlM_cons]
      apply (hstep i List.mem_cons_self a b h).bind
      intro a' b' hb'
      exact ih (fun j hj => hstep j (List.mem_cons_of_mem i hj)) hb'

theorem simulates_ofOption (o : Option α) :
    Simulates o (Fault.ofOption o) fun a b => a = b := by
  cases o with
  | none => exact rfl
  | some a => exact ⟨a, rfl, rfl⟩

/-- A loop that appends some values for every element. -/
theorem foldlM_flatMap {F : List β → ι → Except Fault (List β)} {f : ι → List β}
    (hF : ∀ acc i, F acc i = .ok (acc ++ f i)) (l : List ι) (acc : List β) :
    l.foldlM F acc = .ok (acc ++ l.flatMap f) := by
  induction l generalizing acc with
  | nil =>
      rw [List.flatMap_nil, List.append_nil]
      exact rfl
  | cons i l ih =>
      rw [List.foldlM_cons, hF, List.flatMap_cons, ← List.append_assoc]
      exact ih (acc ++ f i)

/-- A loop that appends a value for some elements. -/
theorem foldlM_filter {F : List β → ι → Except Fault (List β)} {p : ι → Bool} {f : ι → β}
    (hF : ∀ acc i, F acc i = .ok (if p i then acc ++ [f i] else acc)) (l : List ι)
    (acc : List β) : l.foldlM F acc = .ok (acc ++ (l.filter p).map f) := by
  have hsplit : (l.filter p).map f = l.flatMap fun i => if p i then [f i] else [] := by
    induction l with
    | nil => rfl
    | cons i l ih =>
        rw [List.filter_cons, List.flatMap_cons, ← ih]
        split <;> rfl
  rw [hsplit]
  apply foldlM_flatMap
  intro acc i
  rw [hF]
  split
  · rfl
  · rw [List.append_nil]

/-- What a simulation says about the value returned. -/
theorem Simulates.map_eq {p : β → α} (h : Simulates o r R) (hR : ∀ a b, R a b → p b = a) :
    r.map p = Fault.ofOption o := by
  cases o with
  | none =>
      have hr : r = .error .assertion := h
      rw [hr]
      exact rfl
  | some a =>
      obtain ⟨b, rfl, hb⟩ : r.Yields (R a) := h
      exact congrArg Except.ok (hR a b hb)

end Except

/-! ## Vectors -/

namespace Buffer

variable {α : Type} {n : ℕ}

/-- `vec[i]`. -/
def get (vec : List α) (i : ℕ) : Except Fault α :=
  vec[i]?.elim (.error .index) .ok

/-- `vec[i] = a`. -/
def set (vec : List α) (i : ℕ) (a : α) : Except Fault (List α) :=
  if i < vec.length then .ok (vec.set i a) else .error .index

/-- `vec[i].push_back(a)`. -/
def pushBack (vec : List (List α)) (i : ℕ) (a : α) : Except Fault (List (List α)) := do
  let l ← get vec i
  set vec i (l ++ [a])

/-- The loop `for (i : l) vec[i] = a`. -/
def setEach (vec : List α) (l : List (Fin n)) (a : α) : Except Fault (List α) :=
  l.foldlM (fun vec (i : Fin n) => set vec i a) vec

/-- A signed index. -/
def index (i : ℤ) : Except Fault ℕ :=
  if 0 ≤ i then .ok i.toNat else .error .index

/-- `vec.resize(size)`, with the value of new entries. -/
def resize (zero : α) (size : ℕ) (vec : List α) : List α :=
  vec.take size ++ List.replicate (size - vec.length) zero

/-- The vector with the entries of `f` before those of `tail`. -/
def of (f : Fin n → α) (tail : List α) : List α :=
  List.ofFn f ++ tail

theorem get_of (f : Fin n → α) (tail : List α) (i : Fin n) : get (of f tail) i = .ok (f i) := by
  rw [get, of, List.getElem?_append_left (by rw [List.length_ofFn]; exact i.isLt),
    List.getElem?_ofFn, dif_pos i.isLt]
  rfl

theorem set_of (f : Fin n → α) (tail : List α) (i : Fin n) (a : α) :
    set (of f tail) i a = .ok (of (Function.update f i a) tail) := by
  have hlen : (i : ℕ) < (List.ofFn f).length := by
    rw [List.length_ofFn]
    exact i.isLt
  rw [set, of, of, if_pos (by rw [List.length_append]; exact Nat.lt_add_right _ hlen),
    List.set_append_left _ _ hlen]
  congr 2
  apply List.ext_getElem
  · simp
  · intro j hj hj'
    rw [List.getElem_set, List.getElem_ofFn]
    by_cases hij : (i : ℕ) = j
    · subst hij
      rw [if_pos rfl, List.getElem_ofFn, Function.update_self]
    · rw [if_neg hij, List.getElem_ofFn, Function.update_of_ne]
      exact fun heq => hij (congrArg Fin.val heq).symm

theorem pushBack_of (f : Fin n → List α) (tail : List (List α)) (i : Fin n) (a : α) :
    pushBack (of f tail) i a = .ok (of (Function.update f i (f i ++ [a])) tail) := by
  rw [pushBack, get_of]
  exact set_of f tail i (f i ++ [a])

theorem setEach_of (f : Fin n → α) (tail : List α) (l : List (Fin n)) (a : α) :
    setEach (of f tail) l a = .ok (of (l.foldl (fun f i => Function.update f i a) f) tail) := by
  induction l generalizing f with
  | nil => rfl
  | cons i l ih =>
      rw [setEach, List.foldlM_cons, set_of, List.foldl_cons]
      exact ih (Function.update f i a)

/-- An entry that is written or has the value before has it afterwards. -/
theorem foldl_update_of_mem {f : Fin n → α} {l : List (Fin n)} {a : α} {j : Fin n}
    (h : j ∈ l ∨ f j = a) : l.foldl (fun f i => Function.update f i a) f j = a := by
  induction l generalizing f with
  | nil => exact h.resolve_left List.not_mem_nil
  | cons i l ih =>
      rw [List.foldl_cons]
      apply ih
      by_cases hji : j = i
      · subst hji
        exact Or.inr (Function.update_self j a f)
      · rw [Function.update_of_ne hji]
        exact h.imp_left fun hmem => (List.mem_cons.mp hmem).resolve_left hji

/-- Every entry is overwritten. -/
theorem setEach_finRange (f : Fin n → α) (tail : List α) (a : α) :
    setEach (of f tail) (List.finRange n) a = .ok (of (fun _ : Fin n => a) tail) := by
  rw [setEach_of]
  have hall : (List.finRange n).foldl (fun f i => Function.update f i a) f = fun _ => a := by
    ext1 j
    exact foldl_update_of_mem (Or.inl (List.mem_finRange j))
  rw [hall]

theorem index_natCast (i : ℕ) : index i = .ok i := by
  rw [index, if_pos (Int.natCast_nonneg i), Int.toNat_natCast]

/-- A vector with `n` entries. -/
theorem exists_eq_of {vec : List α} (h : n ≤ vec.length) :
    ∃ f : Fin n → α, vec = of f (vec.drop n) := by
  refine ⟨fun i => vec.get ⟨i, i.isLt.trans_le h⟩, ?_⟩
  conv_lhs => rw [← List.take_append_drop n vec]
  rw [of]
  congr 1
  apply List.ext_getElem
  · rw [List.length_take, List.length_ofFn, min_eq_left h]
  · intro j hj hj'
    rw [List.getElem_take, List.getElem_ofFn, List.get_eq_getElem]

theorem length_resize (zero : α) (size : ℕ) (vec : List α) :
    (resize zero size vec).length = size := by
  rw [resize, List.length_append, List.length_take, List.length_replicate]
  omega

end Buffer
