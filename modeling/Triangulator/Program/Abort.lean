import Mathlib

/-!
# Programs that may abort

A program over a state either returns a value or aborts; an aborted run keeps the
state it aborted in.  A weakest precondition has one postcondition for each way to
end: total correctness takes the second one false, a safety property of every
prefix of a run takes the property itself.
-/

/-- A program over states of type `σ` that returns a value of type `α` or
aborts. -/
def AbortM (σ α : Type) : Type :=
  σ → Option α × σ

namespace AbortM

variable {σ α β γ ι κ : Type}

/-- Runs a continuation on the value of a finished program. -/
def andThen (r : Option α × σ) (f : α → AbortM σ β) : Option β × σ :=
  r.1.elim (none, r.2) fun a => f a r.2

instance : Monad (AbortM σ) where
  pure a := fun s => (some a, s)
  bind m f := fun s => andThen (m s) f

theorem andThen_pure (r : Option α × σ) : andThen r pure = r := by
  rcases r with ⟨_ | a, s⟩
  · rfl
  · rfl

theorem andThen_assoc (r : Option α × σ) (f : α → AbortM σ β) (g : β → AbortM σ γ) :
    andThen (andThen r f) g = andThen r fun a => f a >>= g := by
  rcases r with ⟨_ | a, s⟩
  · rfl
  · rfl

instance : LawfulMonad (AbortM σ) := LawfulMonad.mk' _
  (fun m => funext fun s => andThen_pure (m s))
  (fun _ _ => rfl)
  (fun m f g => funext fun s => andThen_assoc (m s) f g)

/-- The program that aborts. -/
def abort : AbortM σ α := fun s => (none, s)

/-- `assert`: aborts unless the condition holds. -/
def assert (b : Bool) : AbortM σ Unit := fun s => (if b then some () else none, s)

/-- The value of an optional result, with an abort for a missing one. -/
def ofOption (o : Option α) : AbortM σ α := fun s => (o, s)

/-- A program that is run under a condition. -/
def when (c : Prop) [Decidable c] (m : AbortM σ PUnit) : AbortM σ PUnit :=
  if c then m else pure ⟨⟩

def get : AbortM σ σ := fun s => (some s, s)

def modify (f : σ → σ) : AbortM σ Unit := fun s => (some (), f s)

/-! ## Runs -/

section Runs

variable {f : α → AbortM σ β} {s s' : σ} {a : α}

theorem pure_run : (pure a : AbortM σ α) s = (some a, s) := rfl

/-- A program that returns, and what comes after it. -/
theorem bind_of {m : AbortM σ α} (h : m s = (some a, s')) : (m >>= f) s = f a s' := by
  simp only [bind, andThen, h, Option.elim_some]

theorem ofOption_bind : (ofOption (some a) >>= f) s = f a s := rfl

theorem get_bind {f : σ → AbortM σ β} : (get >>= f) s = f s s := rfl

theorem modify_bind {g : σ → σ} {f : Unit → AbortM σ β} : (modify g >>= f) s = f () (g s) :=
  rfl

theorem assert_bind {b : Bool} {f : Unit → AbortM σ β} (hb : b = true) :
    (assert b >>= f) s = f () s := by
  rw [hb]
  rfl

end Runs

/-! ## Weakest preconditions -/

/-- A run from `s` that returns ends with `Q`, and one that aborts ends with
`E`. -/
def wp (m : AbortM σ α) (Q : α → σ → Prop) (E : σ → Prop) (s : σ) : Prop :=
  (m s).1.elim (E (m s).2) fun a => Q a (m s).2

section Rules

variable {m : AbortM σ α} {Q Q' : α → σ → Prop} {E E' : σ → Prop} {s : σ}

@[simp] theorem wp_pure (a : α) : wp (pure a : AbortM σ α) Q E s ↔ Q a s :=
  Iff.rfl

@[simp] theorem wp_bind (f : α → AbortM σ β) {R : β → σ → Prop} :
    wp (m >>= f) R E s ↔ wp m (fun a s' => wp (f a) R E s') E s := by
  simp only [wp, bind, andThen]
  cases h : (m s).1 with
  | none => exact Iff.rfl
  | some a => exact Iff.rfl

@[simp] theorem wp_map (f : α → β) {R : β → σ → Prop} :
    wp (f <$> m) R E s ↔ wp m (fun a s' => R (f a) s') E s := by
  rw [← bind_pure_comp, wp_bind]
  exact Iff.rfl

@[simp] theorem wp_abort : wp (abort : AbortM σ α) Q E s ↔ E s :=
  Iff.rfl

@[simp] theorem wp_get {Q : σ → σ → Prop} : wp (get : AbortM σ σ) Q E s ↔ Q s s :=
  Iff.rfl

@[simp] theorem wp_modify (f : σ → σ) {Q : Unit → σ → Prop} :
    wp (modify f) Q E s ↔ Q () (f s) :=
  Iff.rfl

theorem wp_assert {b : Bool} {Q : Unit → σ → Prop} :
    wp (assert b) Q E s ↔ if b then Q () s else E s := by
  cases b <;> exact Iff.rfl

/-- An assertion that holds. -/
theorem wp_assert_of {b : Bool} {Q : Unit → σ → Prop} (hb : b = true) (h : Q () s) :
    wp (assert b) Q E s := by
  rw [wp_assert, if_pos hb]
  exact h

theorem wp_ofOption_some (a : α) : wp (ofOption (some a)) Q E s ↔ Q a s :=
  Iff.rfl

/-- Weaker postconditions. -/
theorem wp_mono (h : wp m Q E s) (hQ : ∀ a s', Q a s' → Q' a s')
    (hE : ∀ s', E s' → E' s') : wp m Q' E' s := by
  rw [wp] at h ⊢
  cases hm : (m s).1 with
  | none =>
      rw [hm] at h
      exact hE _ h
  | some a =>
      rw [hm] at h
      exact hQ _ _ h

/-- A weaker postcondition for the runs that return. -/
theorem wp_imp (h : wp m Q E s) (hQ : ∀ a s', Q a s' → Q' a s') : wp m Q' E s :=
  wp_mono h hQ fun _ => id

/-- Two postconditions at once. -/
theorem wp_and (h : wp m Q E s) (h' : wp m Q' E s) :
    wp m (fun a s' => Q a s' ∧ Q' a s') E s := by
  rw [wp] at h h' ⊢
  cases hm : (m s).1 with
  | none =>
      rw [hm] at h
      exact h
  | some a =>
      rw [hm] at h h'
      exact ⟨h, h'⟩

/-- A run that does not abort meets a postcondition of the runs that return. -/
theorem wp_and_of_total (h : wp m Q (fun _ => False) s) (h' : wp m Q' E' s) :
    wp m (fun a s' => Q a s' ∧ Q' a s') E s := by
  rw [wp] at h h' ⊢
  cases hm : (m s).1 with
  | none =>
      rw [hm] at h
      cases h
  | some a =>
      rw [hm] at h h'
      exact ⟨h, h'⟩

/-- A program that cannot abort returns. -/
theorem exists_of_wp (h : wp m Q (fun _ => False) s) :
    ∃ a s', m s = (some a, s') ∧ Q a s' := by
  rw [wp] at h
  cases hm : (m s).1 with
  | none =>
      rw [hm] at h
      cases h
  | some a =>
      rw [hm] at h
      exact ⟨a, (m s).2, Prod.ext hm rfl, h⟩

/-- Conditions that hold in every state. -/
theorem wp_of_forall (hQ : ∀ a s', Q a s') (hE : ∀ s', E s') : wp m Q E s := by
  rw [wp]
  cases (m s).1 with
  | none => exact hE _
  | some a => exact hQ a _

/-- A run that returns meets the postcondition. -/
theorem post_of_wp {a : α} {s' : σ} (h : wp m Q E s) (hm : m s = (some a, s')) : Q a s' := by
  rw [wp, hm] at h
  exact h

/-- A run ends in a state of which the common postcondition holds. -/
theorem state_of_wp {R : σ → Prop} (h : wp m (fun _ s' => R s') R s) : R (m s).2 := by
  rw [wp] at h
  cases hm : (m s).1 with
  | none =>
      rw [hm] at h
      exact h
  | some a =>
      rw [hm] at h
      exact h

theorem wp_ite {c : Prop} [Decidable c] {m' : AbortM σ α} (h : c → wp m Q E s)
    (h' : ¬c → wp m' Q E s) : wp (if c then m else m') Q E s := by
  by_cases hc : c
  · rw [if_pos hc]
    exact h hc
  · rw [if_neg hc]
    exact h' hc

theorem wp_when {c : Prop} [Decidable c] {m : AbortM σ PUnit} {Q : PUnit → σ → Prop}
    (h : c → wp m Q E s) (h' : ¬c → Q ⟨⟩ s) : wp (when c m) Q E s :=
  wp_ite h h'

end Rules

/-! ## Loops -/

section Loops

variable {E : σ → Prop}

/-- A loop over a list keeps an invariant that may mention the part of the list
already seen. -/
theorem wp_foldlM {f : β → ι → AbortM σ β} {l : List ι} (I : List ι → β → σ → Prop)
    {b : β} {s : σ} (h : I [] b s)
    (step : ∀ pre i post b s, l = pre ++ i :: post → I pre b s →
      wp (f b i) (fun b' => I (pre ++ [i]) b') E s) :
    wp (l.foldlM f b) (fun b' => I l b') E s := by
  suffices hgen : ∀ post pre b s, l = pre ++ post → I pre b s →
      wp (post.foldlM f b) (fun b' => I l b') E s from hgen l [] b s rfl h
  intro post
  induction post with
  | nil =>
      intro pre b s hl hI
      rw [List.append_nil] at hl
      rw [hl]
      exact hI
  | cons i post ih =>
      intro pre b s hl hI
      rw [List.foldlM_cons, wp_bind]
      apply wp_imp (step pre i post b s hl hI)
      intro b' s' hI'
      exact ih (pre ++ [i]) b' s' (by rw [hl, List.append_cons]) hI'

/-- A loop over an interval keeps an invariant that mentions the number of rounds
made. -/
theorem wp_foldlM_range' {f : β → ℕ → AbortM σ β} {k m : ℕ}
    (I : ℕ → β → σ → Prop) {b : β} {s : σ} (h : I 0 b s)
    (step : ∀ i < m, ∀ b s, I i b s → wp (f b (k + i)) (I (i + 1)) E s) :
    wp ((List.range' k m).foldlM f b) (I m) E s := by
  have hloop := wp_foldlM (E := E) (f := f) (l := List.range' k m)
    (fun pre => I pre.length) h ?_
  · rwa [List.length_range'] at hloop
  intro pre i post b s hl hI
  have hlen : pre.length < m := by
    have := congrArg List.length hl
    simp only [List.length_range', List.length_append, List.length_cons] at this
    omega
  have hi : i = k + pre.length := by
    have h1 : (List.range' k m)[pre.length]? = some i := by
      rw [hl, List.getElem?_append_right le_rfl, Nat.sub_self, List.getElem?_cons_zero]
    rw [List.getElem?_range' hlen, Option.some_inj] at h1
    omega
  rw [hi, List.length_append, List.length_singleton]
  exact step pre.length hlen b s hI

theorem wp_foldlM_range {f : β → ℕ → AbortM σ β} {m : ℕ}
    (I : ℕ → β → σ → Prop) {b : β} {s : σ} (h : I 0 b s)
    (step : ∀ i < m, ∀ b s, I i b s → wp (f b i) (I (i + 1)) E s) :
    wp ((List.range m).foldlM f b) (I m) E s := by
  rw [List.range_eq_range']
  apply wp_foldlM_range' I h
  intro i hi b s hI
  rw [Nat.zero_add]
  exact step i hi b s hI

/-- A loop over the elements of a finite type in increasing order. -/
theorem wp_foldlM_finRange {n : ℕ} {f : β → Fin n → AbortM σ β}
    (I : ℕ → β → σ → Prop) {b : β} {s : σ} (h : I 0 b s)
    (step : ∀ (i : Fin n) b s, I i b s → wp (f b i) (I (i + 1)) E s) :
    wp ((List.finRange n).foldlM f b) (I n) E s := by
  have hloop := wp_foldlM (E := E) (f := f) (l := List.finRange n)
    (fun pre => I pre.length) h ?_
  · rwa [List.length_finRange] at hloop
  intro pre i post b s hl hI
  have hi : (i : ℕ) = pre.length := by
    have h1 : (List.finRange n)[pre.length]? = some i := by
      rw [hl, List.getElem?_append_right le_rfl, Nat.sub_self, List.getElem?_cons_zero]
    obtain ⟨hlt, h2⟩ := List.getElem?_eq_some_iff.mp h1
    rw [List.getElem_finRange] at h2
    rw [← h2]
    rfl
  rw [List.length_append, List.length_singleton, ← hi]
  exact step i b s (hi ▸ hI)

/-- A loop without a result keeps an invariant. -/
theorem wp_forM {f : ι → AbortM σ PUnit} {l : List ι} (I : List ι → σ → Prop) {s : σ}
    (h : I [] s)
    (step : ∀ pre i post s, l = pre ++ i :: post → I pre s →
      wp (f i) (fun _ => I (pre ++ [i])) E s) :
    wp (forM l f) (fun _ => I l) E s := by
  suffices hgen : ∀ post pre s, l = pre ++ post → I pre s →
      wp (forM post f) (fun _ => I l) E s from hgen l [] s rfl h
  intro post
  induction post with
  | nil =>
      intro pre s hl hI
      rw [List.append_nil] at hl
      rw [hl]
      exact hI
  | cons i post ih =>
      intro pre s hl hI
      rw [List.forM_cons, wp_bind]
      apply wp_imp (step pre i post s hl hI)
      intro _ s' hI'
      exact ih (pre ++ [i]) s' (by rw [hl, List.append_cons]) hI'

theorem wp_forM_inv {f : ι → AbortM σ PUnit} {l : List ι} (I : σ → Prop) {s : σ}
    (h : I s) (step : ∀ i ∈ l, ∀ s, I s → wp (f i) (fun _ => I) E s) :
    wp (forM l f) (fun _ => I) E s := by
  apply wp_forM (fun _ => I) h
  intro pre i post s hl hI
  exact step i (by simp [hl]) s hI

/-- A loop whose rounds leave the state alone or establish something that lasts. -/
theorem wp_foldlM_or {f : β → ι → AbortM σ β} {l : List ι} (J : β → Prop) {D : σ → Prop}
    {b : β} {s : σ} (hb : J b)
    (step : ∀ i ∈ l, ∀ b, J b → wp (f b i) (fun b' s' => J b' ∧ s' = s ∨ D s') E s)
    (last : ∀ i b s', D s' → wp (f b i) (fun _ s' => D s') E s') :
    wp (l.foldlM f b) (fun b' s' => J b' ∧ s' = s ∨ D s') E s := by
  apply wp_foldlM (fun _ b' s' => J b' ∧ s' = s ∨ D s') (Or.inl ⟨hb, rfl⟩)
  rintro pre i post b' s' hl (⟨hb', rfl⟩ | hD)
  · exact step i (by simp [hl]) b' hb'
  · exact wp_imp (last i b' s' hD) fun _ _ => Or.inr

/-- One of the rounds establishes it. -/
theorem wp_foldlM_until {f : β → ι → AbortM σ β} {l : List ι} (J : β → Prop) {D : σ → Prop}
    {b : β} {s : σ} (hb : J b)
    (step : ∀ i ∈ l, ∀ b, J b → wp (f b i) (fun b' s' => J b' ∧ s' = s ∨ D s') E s)
    (last : ∀ i b s', D s' → wp (f b i) (fun _ s' => D s') E s')
    (hit : ∃ i ∈ l, ∀ b, J b → wp (f b i) (fun _ s' => D s') E s) :
    wp (l.foldlM f b) (fun _ s' => D s') E s := by
  obtain ⟨i, hi, hit⟩ := hit
  obtain ⟨pre, post, rfl⟩ := List.append_of_mem hi
  have hlast : ∀ (l : List ι) b s', D s' → wp (l.foldlM f b) (fun _ s' => D s') E s' := by
    intro l b s' hD
    exact wp_foldlM (fun _ _ s' => D s') hD fun _ i _ b s' _ hD => last i b s' hD
  rw [List.foldlM_append, wp_bind]
  apply wp_imp (wp_foldlM_or J hb (fun i hi => step i (List.mem_append_left _ hi)) last)
  rintro b₁ s₁ (⟨hb₁, rfl⟩ | hD)
  · rw [List.foldlM_cons, wp_bind]
    exact wp_imp (hit b₁ hb₁) fun b₂ s₂ hD => hlast post b₂ s₂ hD
  · exact hlast (i :: post) b₁ s₁ hD

/-- A loop without a result as a loop with one. -/
theorem forM_eq_foldlM (f : ι → AbortM σ PUnit) (l : List ι) :
    forM l f = l.foldlM (fun _ i => f i) PUnit.unit := by
  induction l with
  | nil => rfl
  | cons i l ih =>
      rw [List.forM_cons, List.foldlM_cons, ih]

theorem wp_forM_or {f : ι → AbortM σ PUnit} {l : List ι} {D : σ → Prop} {s : σ}
    (step : ∀ i ∈ l, wp (f i) (fun _ s' => s' = s ∨ D s') E s)
    (last : ∀ i s', D s' → wp (f i) (fun _ s' => D s') E s') :
    wp (forM l f) (fun _ s' => s' = s ∨ D s') E s := by
  rw [forM_eq_foldlM]
  apply wp_imp (wp_foldlM_or (fun _ => True) trivial
    (fun i hi _ _ => wp_imp (step i hi) fun _ _ h => h.imp_left fun h => ⟨trivial, h⟩)
    fun i _ s' => last i s')
  exact fun _ _ h => h.imp_left And.right

theorem wp_forM_until {f : ι → AbortM σ PUnit} {l : List ι} {D : σ → Prop} {s : σ}
    (step : ∀ i ∈ l, wp (f i) (fun _ s' => s' = s ∨ D s') E s)
    (last : ∀ i s', D s' → wp (f i) (fun _ s' => D s') E s')
    (hit : ∃ i ∈ l, wp (f i) (fun _ s' => D s') E s) :
    wp (forM l f) (fun _ s' => D s') E s := by
  obtain ⟨i, hi, hit⟩ := hit
  rw [forM_eq_foldlM]
  exact wp_foldlM_until (fun _ => True) trivial
    (fun i hi _ _ => wp_imp (step i hi) fun _ _ h => h.imp_left fun h => ⟨trivial, h⟩)
    (fun i _ s' => last i s') ⟨i, hi, fun _ _ => hit⟩

/-- The two rules for a loop in a loop. -/
theorem wp_forM_forM_or {f : ι → κ → AbortM σ PUnit} {l : List ι} {l' : ι → List κ}
    {D : σ → Prop} {s : σ}
    (step : ∀ i ∈ l, ∀ k ∈ l' i, wp (f i k) (fun _ s' => s' = s ∨ D s') E s)
    (last : ∀ i k s', D s' → wp (f i k) (fun _ s' => D s') E s') :
    wp (forM l fun i => forM (l' i) (f i)) (fun _ s' => s' = s ∨ D s') E s :=
  wp_forM_or (fun i hi => wp_forM_or (step i hi) (last i)) fun i _ hD =>
    wp_forM_inv D hD fun k _ s' => last i k s'

theorem wp_forM_forM_until {f : ι → κ → AbortM σ PUnit} {l : List ι} {l' : ι → List κ}
    {D : σ → Prop} {s : σ}
    (step : ∀ i ∈ l, ∀ k ∈ l' i, wp (f i k) (fun _ s' => s' = s ∨ D s') E s)
    (last : ∀ i k s', D s' → wp (f i k) (fun _ s' => D s') E s')
    (hit : ∃ i ∈ l, ∃ k ∈ l' i, wp (f i k) (fun _ s' => D s') E s) :
    wp (forM l fun i => forM (l' i) (f i)) (fun _ s' => D s') E s := by
  obtain ⟨i, hi, hit⟩ := hit
  refine wp_forM_until (fun i hi => wp_forM_or (step i hi) (last i)) (fun i _ hD => ?_)
    ⟨i, hi, wp_forM_until (step i hi) (last i) hit⟩
  exact wp_forM_inv D hD fun k _ s' => last i k s'

end Loops

end AbortM
