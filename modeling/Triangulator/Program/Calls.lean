import Triangulator.Program.Abort

/-!
# Programs that keep a log

The state of a program that talks to another component is the list of calls it made, the
last one first.  Such a program only adds to the log, and what it can add is known from its
parts.
-/

namespace AbortM

variable {ε α β ι : Type} {P : ε → Prop}

/-- The calls that the program adds to the log satisfy `P`, also when it aborts. -/
def Logs (P : ε → Prop) (m : AbortM (List ε) α) : Prop :=
  ∀ t, ∃ calls, (m t).2 = calls ++ t ∧ ∀ call ∈ calls, P call

namespace Logs

variable {m : AbortM (List ε) α}

/-- A program that keeps the log. -/
theorem of_same (h : ∀ t, (m t).2 = t) : Logs P m :=
  fun t => ⟨[], h t, fun _ hcall => absurd hcall List.not_mem_nil⟩

theorem pure (a : α) : Logs P (pure a : AbortM (List ε) α) := of_same fun _ => rfl

theorem abort : Logs P (abort : AbortM (List ε) α) := of_same fun _ => rfl

theorem assert (b : Bool) : Logs P (assert b : AbortM (List ε) Unit) := of_same fun _ => rfl

theorem ofOption (o : Option α) : Logs P (ofOption o : AbortM (List ε) α) :=
  of_same fun _ => rfl

theorem get : Logs P (get : AbortM (List ε) (List ε)) := of_same fun _ => rfl

/-- One call. -/
theorem call {c : ε} (h : P c) : Logs P (modify (c :: ·) : AbortM (List ε) Unit) :=
  fun _ => ⟨[c], rfl, fun _ hmem => List.mem_singleton.mp hmem ▸ h⟩

theorem bind {f : α → AbortM (List ε) β} (h : Logs P m) (hf : ∀ a, Logs P (f a)) :
    Logs P (m >>= f) := by
  intro t
  obtain ⟨calls, hcalls, hall⟩ := h t
  cases hm : (m t).1 with
  | none =>
      refine ⟨calls, ?_, hall⟩
      rw [← hcalls]
      simp only [Bind.bind, andThen, hm, Option.elim_none]
  | some a =>
      obtain ⟨calls', hcalls', hall'⟩ := hf a (m t).2
      refine ⟨calls' ++ calls, ?_, ?_⟩
      · rw [List.append_assoc, ← hcalls, ← hcalls']
        simp only [Bind.bind, andThen, hm, Option.elim_some]
      · exact List.forall_mem_append.mpr ⟨hall', hall⟩

/-- What holds of every continuation of the log holds after the program. -/
theorem wp {R : List ε → Prop} {t : List ε} (h : Logs P m)
    (hR : ∀ calls, (∀ call ∈ calls, P call) → R (calls ++ t)) :
    wp m (fun _ t' => R t') R t := by
  obtain ⟨calls, hcalls, hall⟩ := h t
  rw [AbortM.wp, hcalls]
  cases (m t).1 with
  | none => exact hR calls hall
  | some _ => exact hR calls hall

end Logs

end AbortM
