import Triangulator.Program.Calls

/-!
# Programs over a component

A client uses a component only through its calls: it is a tree that branches over the reply
to each call, so that the same client runs on every component with these calls.  A protocol
says which calls a component allows after which replies.  A component that simulates another
one under the calls that a protocol allows gives every client that obeys the protocol the
same result.
-/

/-- A client of a component. -/
inductive Client (Call : Type) (Reply : Call → Type) (α : Type)
  | done (a : α)
  | abort
  | call (c : Call) (rest : Reply c → Client Call Reply α)

/-- What a component allows: a call is allowed in some modes, and a reply leads to the next
mode. -/
structure Protocol (Call : Type) (Reply : Call → Type) where
  Mode : Type
  allowed : Mode → Call → Prop
  next : Mode → ∀ c, Reply c → Mode

namespace Client

open AbortM

variable {Call : Type} {Reply : Call → Type} {α β ι σ τ ω : Type}

/-- The run of a client on a component with states `σ`. -/
def run (component : ∀ c, AbortM σ (Reply c)) : Client Call Reply α → AbortM σ α
  | done a => pure a
  | abort => AbortM.abort
  | call c rest => component c >>= fun r => run component (rest r)

/-- All calls that the client can make are allowed, and a result comes in a mode in which it
meets `Q`. -/
def Obeys (P : Protocol Call Reply) (Q : P.Mode → α → Prop) :
    P.Mode → Client Call Reply α → Prop
  | mode, done a => Q mode a
  | _, abort => True
  | mode, call c rest =>
      P.allowed mode c ∧ ∀ r, Obeys P Q (P.next mode c r) (rest r)

/-! ## Runs -/

section Runs

variable {component component' : ∀ c, AbortM σ (Reply c)}

theorem run_call {c : Call} {rest : Reply c → Client Call Reply α} {s : σ} :
    (call c rest).run component s = (component c s).1.elim (none, (component c s).2)
      fun r => (rest r).run component (component c s).2 :=
  rfl

/-- What every call keeps, every run keeps. -/
theorem run_invariant {R : σ → Prop} (h : ∀ c s, R s → R (component c s).2)
    (client : Client Call Reply α) {s : σ} (hs : R s) : R (client.run component s).2 := by
  induction client generalizing s with
  | done a => exact hs
  | abort => exact hs
  | call c rest ih =>
      have hcall := h c s hs
      rw [run_call]
      cases (component c s).1 with
      | none => exact hcall
      | some r => exact ih r hcall

/-- A run that ends in a set of states that no call enters started there. -/
theorem run_back {B : σ → Prop} (h : ∀ c s, B (component c s).2 → B s)
    (client : Client Call Reply α) {s : σ} (hB : B (client.run component s).2) : B s := by
  by_contra hs
  exact run_invariant (R := fun s => ¬B s) (fun c s hs hB => hs (h c s hB)) client hs hB

/-- So did the run after its first call. -/
theorem call_back {B : σ → Prop} (h : ∀ c s, B (component c s).2 → B s) {c : Call}
    {rest : Reply c → Client Call Reply α} {s : σ}
    (hB : B ((call c rest).run component s).2) : B (component c s).2 := by
  rw [run_call] at hB
  cases hr : (component c s).1 with
  | none =>
      rw [hr] at hB
      exact hB
  | some r =>
      rw [hr] at hB
      exact run_back h (rest r) hB

/-- Two components give a client the same run when their calls agree in the states before
those that the two runs end in. -/
theorem run_congr {J B B' : σ → Prop} (hJ : ∀ c s, J s → J (component c s).2)
    (hB : ∀ c s, B (component c s).2 → B s) (hB' : ∀ c s, B' (component' c s).2 → B' s)
    (hcall : ∀ c s, J s → B (component c s).2 → B' (component' c s).2 →
      component' c s = component c s)
    (client : Client Call Reply α) {s : σ} (hs : J s) (hend : B (client.run component s).2)
    (hend' : B' (client.run component' s).2) :
    client.run component' s = client.run component s := by
  induction client generalizing s with
  | done a => rfl
  | abort => rfl
  | call c rest ih =>
      have heq := hcall c s hs (call_back hB hend) (call_back hB' hend')
      rw [run_call] at hend hend' ⊢
      rw [run_call, heq]
      rw [heq] at hend'
      cases hr : (component c s).1 with
      | none => rfl
      | some r =>
          rw [hr] at hend hend'
          exact ih r (hJ c s hs) hend hend'

end Runs

/-! ## Programs that are clients -/

section Plays

variable (P : Protocol Call Reply) (component : ω → ∀ c, AbortM σ (Reply c))

/-- The program, which may depend on the component, is a client that obeys the protocol. -/
inductive Plays (Q : P.Mode → α → Prop) : P.Mode → (ω → AbortM σ α) → Prop
  | done {mode : P.Mode} {a : α} (h : Q mode a) : Plays Q mode fun _ => pure a
  | abort {mode : P.Mode} : Plays Q mode fun _ => AbortM.abort
  | call {mode : P.Mode} {c : Call} {rest : ω → Reply c → AbortM σ α}
      (h : P.allowed mode c)
      (hrest : ∀ r, Plays Q (P.next mode c r) fun w => rest w r) :
      Plays Q mode fun w => component w c >>= rest w

variable {P component} {mode : P.Mode} {m : ω → AbortM σ α} {Q : P.Mode → α → Prop}
  {Q' : P.Mode → β → Prop}

namespace Plays

theorem imp {Q₁ : P.Mode → α → Prop} (h : Plays P component Q mode m)
    (hQ : ∀ mode a, Q mode a → Q₁ mode a) : Plays P component Q₁ mode m := by
  induction h with
  | done h => exact .done (hQ _ _ h)
  | abort => exact .abort
  | call h _ ih => exact .call h ih

/-- A protocol that allows more. -/
theorem weaken {allowed : P.Mode → Call → Prop} (h : Plays P component Q mode m)
    (hallowed : ∀ mode c, P.allowed mode c → allowed mode c) :
    Plays { P with allowed := allowed } component Q mode m := by
  induction h with
  | done h => exact .done h
  | abort => exact .abort
  | call h _ ih => exact .call (hallowed _ _ h) ih

/-- One call. -/
theorem single {c : Call} {Q : P.Mode → Reply c → Prop} (h : P.allowed mode c)
    (hQ : ∀ r, Q (P.next mode c r) r) :
    Plays P component Q mode fun w => component w c := by
  have hcall : Plays P component Q mode fun w => component w c >>= Pure.pure :=
    .call h fun r => .done (hQ r)
  simpa only [bind_pure] using hcall

theorem bind {f : ω → α → AbortM σ β} (h : Plays P component Q mode m)
    (hf : ∀ mode a, Q mode a → Plays P component Q' mode fun w => f w a) :
    Plays P component Q' mode fun w => m w >>= f w := by
  induction h with
  | done h => exact hf _ _ h
  | abort => exact .abort
  | call h _ ih =>
      simp only [bind_assoc]
      exact .call h ih

theorem assert {b : Bool} {Q : P.Mode → Unit → Prop} (h : Q mode ()) :
    Plays P component Q mode fun _ => AbortM.assert b := by
  cases b with
  | false => exact .abort
  | true => exact .done h

theorem ofOption {o : Option α} (h : ∀ a, Q mode a) :
    Plays P component Q mode fun _ => AbortM.ofOption o := by
  cases o with
  | none => exact .abort
  | some a => exact .done (h a)

theorem ite {c : Prop} [Decidable c] {m' : ω → AbortM σ α} (h : Plays P component Q mode m)
    (h' : Plays P component Q mode m') :
    Plays P component Q mode fun w => if c then m w else m' w := by
  by_cases hc : c
  · simpa only [if_pos hc] using h
  · simpa only [if_neg hc] using h'

/-- A loop with an invariant. -/
theorem foldlM {I : P.Mode → β → Prop} {f : ω → β → ι → AbortM σ β} {l : List ι} {b : β}
    (hb : I mode b)
    (h : ∀ mode b, ∀ i ∈ l, I mode b → Plays P component I mode fun w => f w b i) :
    Plays P component I mode fun w => l.foldlM (f w) b := by
  induction l generalizing mode b with
  | nil => exact .done hb
  | cons i l ih =>
      simp only [List.foldlM_cons]
      exact (h mode b i List.mem_cons_self hb).bind fun mode b hb =>
        ih hb fun mode b j hj => h mode b j (List.mem_cons_of_mem _ hj)

/-- What a program adds to the log is what its calls add. -/
theorem logs {ε : Type} {E : ε → Prop} {component : ω → ∀ c, AbortM (List ε) (Reply c)}
    {m : ω → AbortM (List ε) α} (h : Plays P component Q mode m)
    (hlogs : ∀ mode c w, P.allowed mode c → Logs E (component w c)) (w : ω) :
    Logs E (m w) := by
  induction h with
  | done h => exact Logs.pure _
  | abort => exact Logs.abort
  | call h _ ih => exact (hlogs _ _ w h).bind ih

end Plays

end Plays

/-! ## Simulation -/

/-- The second component simulates the first one on the calls that the protocol allows, in
runs of the first one that reach only states in `B`. -/
structure Simulates (P : Protocol Call Reply) (B : σ → Prop) (R : P.Mode → σ → τ → Prop)
    (component : ∀ c, AbortM σ (Reply c)) (component' : ∀ c, AbortM τ (Reply c)) : Prop where
  back : ∀ c s r s', component c s = (some r, s') → B s' → B s
  step : ∀ mode c s t r s', P.allowed mode c → R mode s t → B s' →
    component c s = (some r, s') →
    ∃ t', component' c t = (some r, t') ∧ R (P.next mode c r) s' t'

namespace Simulates

variable {P : Protocol Call Reply} {B : σ → Prop} {R : P.Mode → σ → τ → Prop}
  {component : ∀ c, AbortM σ (Reply c)} {component' : ∀ c, AbortM τ (Reply c)}
  {client : Client Call Reply α}

/-- A call that returns, and the rest of the run. -/
theorem exists_of_run_call {c : Call} {rest : Reply c → Client Call Reply α} {s s' : σ} {a : α}
    (h : (call c rest).run component s = (some a, s')) :
    ∃ r s₁, component c s = (some r, s₁) ∧ (rest r).run component s₁ = (some a, s') := by
  simp only [run, Bind.bind, andThen] at h
  rcases hc : component c s with ⟨_ | r, s₁⟩
  · rw [hc] at h
    cases h
  · rw [hc] at h
    exact ⟨r, s₁, rfl, h⟩

/-- A run that ends in `B` started there. -/
theorem run_back (h : Simulates P B R component component') {s s' : σ} {a : α}
    (hrun : client.run component s = (some a, s')) (hB : B s') : B s := by
  induction client generalizing s with
  | done b =>
      obtain ⟨-, rfl⟩ := Prod.mk.inj hrun
      exact hB
  | abort => cases hrun
  | call c rest ih =>
      obtain ⟨r, s₁, hcall, hrest⟩ := exists_of_run_call hrun
      exact h.back c s r s₁ hcall (ih r hrest)

/-- A client that obeys the protocol gets the same result. -/
theorem run {Q : P.Mode → α → Prop} (h : Simulates P B R component component')
    {mode : P.Mode} (hobeys : client.Obeys P Q mode) {s s' : σ} {t : τ} (hR : R mode s t)
    {a : α} (hrun : client.run component s = (some a, s')) (hB : B s') :
    ∃ mode' t', client.run component' t = (some a, t') ∧ R mode' s' t' ∧ Q mode' a := by
  induction client generalizing mode s t with
  | done b =>
      obtain ⟨hb, rfl⟩ := Prod.mk.inj hrun
      obtain rfl := Option.some_inj.mp hb
      exact ⟨mode, t, rfl, hR, hobeys⟩
  | abort => cases hrun
  | call c rest ih =>
      obtain ⟨r, s₁, hcall, hrest⟩ := exists_of_run_call hrun
      obtain ⟨t₁, hcall', hR₁⟩ := h.step mode c s t r s₁ hobeys.1 hR (h.run_back hrest hB) hcall
      obtain ⟨mode', t', hrun', hend⟩ := ih r (hobeys.2 r) hR₁ hrest
      refine ⟨mode', t', ?_, hend⟩
      simp only [Client.run, Bind.bind, andThen, hcall', Option.elim_some]
      exact hrun'

end Simulates

end Client
