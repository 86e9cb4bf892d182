import Triangulator.Verification.McsLoop
import Triangulator.Verification.McsMOrder

/-!
# The minimal triangulation on its static vectors

The loops of `McsM` on their vectors follow the loops on the functions that the vectors
hold, since the label of a vertex that is not removed is below the number of vertices.
-/

namespace Triangulator

open SimpleGraph

variable {n : ℕ} {g : Graph n}

namespace Buffered

/-! ## The search from one vertex -/

/-- The vectors hold the state of a search; what the search does not change is that of
`f`, and `tail` holds the stacks of larger graphs. -/
structure EncodesSweep (tail : List (List ℕ)) (rm : Fin n → Bool) (f : McsMVars n)
    (t : Mcs.Sweep n) (s : McsMVars n) : Prop where
  label : s.label = Buffer.of t.label []
  rm : s.rm = Buffer.of rm []
  rc : s.rc = Buffer.of t.rc []
  reach : s.reach = Buffer.of (fun k : Fin n => stack (t.reach k)) tail
  fill : s.fill = t.fill
  order : s.order = f.order
  isMaximalPoint : s.isMaximalPoint = f.isMaximalPoint
  prevLabel : s.prevLabel = f.prevLabel

variable {tail : List (List ℕ)} {rm : Fin n → Bool} {f s : McsMVars n} {t t' : Mcs.Sweep n}
  {x y z : Fin n} {i : ℕ}

/-- The labels that the first loop over the neighbours may use as indices. -/
def LabelsLt (rm : Fin n → Bool) (t : Mcs.Sweep n) : Prop :=
  ∀ v, rm v = false → t.label v < n

/-- The labels that the search may use as indices. -/
def FreshLt (rm : Fin n → Bool) (t : Mcs.Sweep n) : Prop :=
  ∀ v, rm v = false → t.rc v = false → t.label v < n

theorem EncodesSweep.startNeighbor (h : EncodesSweep tail rm f t s) (hlt : LabelsLt rm t)
    (y : Fin n) :
    (startNeighbor s y).Yields fun s' =>
      EncodesSweep tail rm f (Mcs.startNeighbor rm t y) s' ∧
        LabelsLt rm (Mcs.startNeighbor rm t y) := by
  rw [Buffered.startNeighbor, h.rm, Buffer.get_of, Mcs.startNeighbor]
  cases hrm : rm y with
  | true => exact Except.Yields.pure ⟨h, hlt⟩
  | false =>
      have hpush := pushBack_stack t.reach tail ⟨t.label y, hlt y hrm⟩ y
      have hset := Buffer.set_of t.rc [] y true
      rw [h.rc, h.label, h.reach]
      apply Except.Yields.bind (P := fun rc => rc = _) ⟨_, hset, rfl⟩
      intro rc hrc
      rw [Buffer.get_of]
      apply Except.Yields.bind (P := fun reach => reach = _) ⟨_, hpush, rfl⟩
      intro reach hreach
      apply Except.Yields.pure
      refine ⟨⟨rfl, rfl, hrc, hreach, h.fill, h.order, h.isMaximalPoint,
        h.prevLabel⟩, hlt⟩

theorem EncodesSweep.touch (h : EncodesSweep tail rm f t s) (hlt : FreshLt rm t)
    (hi : i < n) (x z : Fin n) :
    (touch x i s z).Yields fun s' =>
      EncodesSweep tail rm f (Mcs.touch rm x i t z) s' ∧ FreshLt rm (Mcs.touch rm x i t z) := by
  rw [Buffered.touch, h.rm, Buffer.get_of, Mcs.touch]
  cases hrm : rm z with
  | true => exact Except.Yields.pure ⟨h, hlt⟩
  | false =>
      change (Buffer.get s.rc z >>= fun rc => _).Yields _
      rw [h.rc, Buffer.get_of]
      cases hrc : t.rc z with
      | true => exact Except.Yields.pure ⟨h, hlt⟩
      | false =>
          -- A vertex that is touched for the first time.
          have hfresh : ∀ label : Fin n → ℕ, (∀ v, v ≠ z → label v = t.label v) →
              ∀ v, rm v = false → Function.update t.rc z true v = false → label v < n := by
            intro label hlabel v hv hvrc
            have hvz : v ≠ z := by
              intro heq
              rw [heq, Function.update_self] at hvrc
              cases hvrc
            rw [Function.update_of_ne hvz] at hvrc
            rw [hlabel v hvz]
            exact hlt v hv hvrc
          have hset := Buffer.set_of t.rc [] z true
          apply Except.Yields.bind (P := fun rc => rc = _) ⟨_, hset, rfl⟩
          intro rc hrc'
          rw [h.label, Buffer.get_of, h.reach, Bool.or_false, if_neg Bool.false_ne_true]
          by_cases hik : i < t.label z
          · have hpush := pushBack_stack t.reach tail ⟨t.label z, hlt z hrm hrc⟩ z
            have hlabel := Buffer.set_of t.label [] z (t.label z + 1)
            change (if i < t.label z then _ else _ : Except Fault (McsMVars n)).Yields _
            rw [if_pos hik, if_pos hik]
            apply Except.Yields.bind (P := fun reach => reach = _) ⟨_, hpush, rfl⟩
            intro reach hreach
            apply Except.Yields.bind (P := fun label => label = _) ⟨_, hlabel, rfl⟩
            intro label hlabel'
            apply Except.Yields.pure
            refine ⟨⟨hlabel', rfl, hrc', hreach, ?_, h.order, h.isMaximalPoint,
              h.prevLabel⟩, ?_⟩
            · dsimp only
              rw [h.fill]
            · apply hfresh
              intro v hv
              exact Function.update_of_ne hv _ _
          · have hpush := pushBack_stack t.reach tail ⟨i, hi⟩ z
            change (if i < t.label z then _ else _ : Except Fault (McsMVars n)).Yields _
            rw [if_neg hik, if_neg hik]
            apply Except.Yields.bind (P := fun reach => reach = _) ⟨_, hpush, rfl⟩
            intro reach hreach
            apply Except.Yields.pure
            refine ⟨⟨rfl, rfl, hrc', hreach, h.fill, h.order, h.isMaximalPoint,
              h.prevLabel⟩, ?_⟩
            apply hfresh
            intro v _
            exact rfl

/-- The loop that empties a stack. -/
theorem EncodesSweep.drain {fuel : ℕ} (h : EncodesSweep tail rm f t s) (hlt : FreshLt rm t)
    (hi : i < n) (hrun : Mcs.drain g rm x i fuel t = some t') :
    (drain g x i fuel s).Yields fun s' => EncodesSweep tail rm f t' s' ∧ FreshLt rm t' := by
  induction fuel generalizing t s with
  | zero =>
      have hget := Buffer.get_of (fun k : Fin n => stack (t.reach k)) tail ⟨i, hi⟩
      rw [Buffered.drain, h.reach]
      apply Except.Yields.bind (P := fun l => l = _) ⟨_, hget, rfl⟩
      intro l hl
      rw [hl, getLast?_stack]
      rw [Mcs.drain] at hrun
      cases hstack : t.reach i with
      | nil =>
          rw [hstack] at hrun
          obtain rfl := Option.some.inj hrun
          exact Except.Yields.pure ⟨h, hlt⟩
      | cons y rest =>
          rw [hstack] at hrun
          cases hrun
  | succ fuel ih =>
      have hget := Buffer.get_of (fun k : Fin n => stack (t.reach k)) tail ⟨i, hi⟩
      rw [Buffered.drain, h.reach]
      apply Except.Yields.bind (P := fun l => l = _) ⟨_, hget, rfl⟩
      intro l hl
      rw [hl, getLast?_stack]
      rw [Mcs.drain] at hrun
      cases hstack : t.reach i with
      | nil =>
          rw [hstack] at hrun
          obtain rfl := Option.some.inj hrun
          exact Except.Yields.pure ⟨h, hlt⟩
      | cons y rest =>
          have hset := Buffer.set_of (fun k : Fin n => stack (t.reach k)) tail ⟨i, hi⟩
            (stack rest)
          rw [update_stack] at hset
          rw [hstack] at hrun
          rw [dropLast_stack_cons]
          apply Except.Yields.bind (P := fun reach => reach = _) ⟨_, hset, rfl⟩
          intro reach hreach
          apply Except.Yields.bind (P := fun v => y = v) ⟨_, vertex_eq y, rfl⟩
          rintro _ rfl
          have hpopped : EncodesSweep tail rm f
              { t with reach := Function.update t.reach i rest } { s with reach := reach } :=
            ⟨h.label, h.rm, h.rc, hreach, h.fill, h.order, h.isMaximalPoint, h.prevLabel⟩
          have hfold := Except.Yields.foldlM (f := Mcs.touch rm x i) (g := Buffered.touch x i)
            (R := fun t s => EncodesSweep tail rm f t s ∧ FreshLt rm t) (l := g.adjList y)
            (fun z _ t s hts => hts.1.touch hts.2 hi x z) ⟨hpopped, hlt⟩
          apply hfold.bind
          rintro s' ⟨hs', hlt'⟩
          exact ih hs' hlt' hrun

theorem EncodesSweep.raiseNeighbor {label : Fin n → ℕ}
    (h : EncodesSweep tail rm f { t with label := label } s) (y : Fin n) :
    (raiseNeighbor s y).Yields
      (EncodesSweep tail rm f { t with label := Mcs.raiseNeighbor rm label y }) := by
  rw [Buffered.raiseNeighbor, h.rm, Buffer.get_of, Mcs.raiseNeighbor]
  cases hrm : rm y with
  | true => exact Except.Yields.pure h
  | false =>
      have hset := Buffer.set_of label [] y (label y + 1)
      rw [h.label]
      change (Buffer.get (Buffer.of label []) y >>= fun k => _).Yields _
      rw [Buffer.get_of]
      apply Except.Yields.bind (P := fun label => label = _) ⟨_, hset, rfl⟩
      intro label' hlabel
      apply Except.Yields.pure
      exact ⟨hlabel, rfl, h.rc, h.reach, h.fill, h.order, h.isMaximalPoint, h.prevLabel⟩

/-! ## A round -/

/-- The vectors hold a state of the main loop. -/
structure EncodesM (tail : List (List ℕ)) (a : Mcs.McsMState n) (s : McsMVars n) : Prop where
  label : s.label = Buffer.of a.label []
  rm : s.rm = Buffer.of a.rm []
  rc : ∃ rc : Fin n → Bool, s.rc = Buffer.of rc []
  reach : s.reach = Buffer.of (fun k : Fin n => stack (a.reach k)) tail
  fill : s.fill = a.fill
  order : s.order = a.order
  isMaximalPoint : s.isMaximalPoint = a.isMaximalPoint
  prevLabel : s.prevLabel = a.prevLabel

variable {a a' : Mcs.McsMState n}

theorem EncodesM.selectMax (h : EncodesM tail a s)
    (hsel : Mcs.selectMax a.rm a.label = some x) :
    (selectMax s).Yields fun p => p.1 = x := by
  rw [Mcs.selectMax] at hsel
  have hfold := Except.Yields.foldlM
    (R := fun (p : Option (Fin n) × ℕ) (q : ℕ × ℕ) =>
      p.2 = q.2 ∧ ∀ v : Fin n, p.1 = some v → q.1 = v)
    (f := fun (p : Option (Fin n) × ℕ) (i : Fin n) =>
      if !a.rm i && decide (p.2 ≤ a.label i) then (some i, a.label i) else p)
    (g := fun (p : ℕ × ℕ) (i : Fin n) => (do
      if ← Buffer.get s.rm i then pure p
      else do
        let k ← Buffer.get s.label i
        pure (if p.2 ≤ k then ((i : ℕ), k) else p) : Except Fault (ℕ × ℕ)))
    (l := List.finRange n) (a := (none, 0)) (b := (0, 0)) ?_ ⟨rfl, fun v hv => by cases hv⟩
  · apply hfold.mono
    intro p hp
    exact hp.2 x hsel
  · rintro i - p q ⟨hsnd, hfst⟩
    rw [h.rm, Buffer.get_of]
    cases hrm : a.rm i with
    | true => exact Except.Yields.pure ⟨hsnd, hfst⟩
    | false =>
        change (Buffer.get s.label i >>= fun k => _).Yields _
        rw [h.label, Buffer.get_of]
        apply Except.Yields.pure
        by_cases hle : q.2 ≤ a.label i
        · rw [hsnd, if_pos hle, decide_eq_true hle]
          refine ⟨rfl, ?_⟩
          rintro v hv
          obtain rfl := Option.some.inj hv
          exact rfl
        · rw [hsnd, if_neg hle, decide_eq_false hle]
          exact ⟨hsnd, hfst⟩

/-- What a round does with the selected vertex. -/
theorem EncodesM.visit (h : EncodesM tail a s) (hlt : ∀ v, a.rm v = false → a.label v < n)
    (hsweep : Mcs.sweep g (Function.update a.rm x true) x
      ⟨a.label, fun _ => false, a.reach, a.fill⟩ = some t) :
    (mcsMVisit g s x (a.label x)).Yields (EncodesM tail (a.next g x t)) := by
  obtain ⟨rc, hrc⟩ := h.rc
  have hsetRc := Buffer.set_of (fun _ : Fin n => false) [] x true
  have hsetRm := Buffer.set_of a.rm [] x true
  rw [mcsMVisit, hrc, Buffer.setEach_finRange, h.rm]
  apply Except.Yields.bind (P := fun rc => rc = _) ⟨_, hsetRc, rfl⟩
  rintro _ rfl
  apply Except.Yields.bind (P := fun rm => rm = _) ⟨_, hsetRm, rfl⟩
  rintro _ rfl
  set rm := Function.update a.rm x true with hrm
  set f : McsMVars n := { s with
    rc := Buffer.of (Function.update (fun _ => false) x true) []
    rm := Buffer.of rm []
    order := x :: s.order
    isMaximalPoint := decide ((a.label x : ℤ) ≤ s.prevLabel) :: s.isMaximalPoint
    prevLabel := a.label x } with hf
  have hstart : EncodesSweep tail rm f
      ⟨a.label, Function.update (fun _ => false) x true, a.reach, a.fill⟩ f :=
    ⟨h.label, rfl, rfl, h.reach, h.fill, rfl, rfl, rfl⟩
  have hlabels : LabelsLt rm
      ⟨a.label, Function.update (fun _ => false) x true, a.reach, a.fill⟩ := by
    intro v hv
    have hvx : v ≠ x := by
      intro heq
      rw [heq, hrm, Function.update_self] at hv
      cases hv
    rw [hrm, Function.update_of_ne hvx] at hv
    exact hlt v hv
  apply (Except.Yields.foldlM (f := Mcs.startNeighbor rm) (g := startNeighbor)
    (R := fun t s => EncodesSweep tail rm f t s ∧ LabelsLt rm t) (l := g.adjList x)
    (fun y _ t s hts => hts.1.startNeighbor hts.2 y) ⟨hstart, hlabels⟩).bind
  rintro s₁ ⟨hs₁, hlt₁⟩
  apply (Except.Yields.foldlM_some
    (R := fun t s => EncodesSweep tail rm f t s ∧ FreshLt rm t)
    (fun i hi t s t' hts hrun => hts.1.drain hts.2 (List.mem_range.mp hi) hrun)
    ⟨hs₁, fun v hv _ => hlt₁ v hv⟩ hsweep).bind
  rintro s₂ ⟨hs₂, -⟩
  apply (Except.Yields.foldlM (f := Mcs.raiseNeighbor rm) (g := raiseNeighbor)
    (R := fun label s => EncodesSweep tail rm f { t with label := label } s)
    (l := g.adjList x) (fun y _ label s hs => hs.raiseNeighbor y) (a := t.label) hs₂).mono
  intro s₃ hs₃
  refine ⟨hs₃.label, hs₃.rm, ⟨_, hs₃.rc⟩, hs₃.reach, hs₃.fill, ?_, ?_, hs₃.prevLabel⟩
  · rw [hs₃.order, hf]
    dsimp only
    rw [h.order]
    exact rfl
  · rw [hs₃.isMaximalPoint, hf]
    dsimp only
    rw [h.isMaximalPoint, h.prevLabel]
    exact rfl

/-- What a round that returns has done. -/
theorem mcsMRound_cases (hround : Mcs.mcsMRound g a = some a') :
    ∃ x t, Mcs.selectMax a.rm a.label = some x ∧ a.label x < n ∧
      Mcs.sweep g (Function.update a.rm x true) x
        ⟨a.label, fun _ => false, a.reach, a.fill⟩ = some t ∧ a' = a.next g x t := by
  obtain ⟨x, hsel, hrest⟩ := Option.bind_eq_some_iff.mp hround
  by_cases hlt : a.label x < n
  · rw [if_pos hlt] at hrest
    obtain ⟨t, hsweep, hnext⟩ := Option.bind_eq_some_iff.mp hrest
    exact ⟨x, t, hsel, hlt, hsweep, (Option.some.inj hnext).symm⟩
  · rw [if_neg hlt] at hrest
    cases hrest

theorem EncodesM.round {order : List (Fin n)} (h : EncodesM tail a s)
    (hinv : Mcs.McsMInv g order a) (hround : Mcs.mcsMRound g a = some a') :
    (mcsMRound g s).Yields (EncodesM tail a') := by
  have hlt : ∀ v, a.rm v = false → a.label v < n := by
    intro v hv
    have hvo : v ∉ order := by
      rw [← hinv.rm_iff, hv]
      exact Bool.false_ne_true
    exact hinv.label_lt hvo
  obtain ⟨x, t, hsel, hltx, hsweep, rfl⟩ := mcsMRound_cases hround
  have hx : a.rm x = false :=
    ((Mcs.selected_fold a.rm a.label (List.finRange n)).some x hsel).1
  apply (h.selectMax hsel).bind
  rintro ⟨_, k⟩ rfl
  rw [h.rm, Buffer.get_of, h.label]
  apply Except.Yields.bind (P := fun k => a.label x = k) ⟨_, Buffer.get_of a.label [] x, rfl⟩
  rintro _ rfl
  rw [hx, decide_eq_true hltx]
  apply Except.Yields.bind (P := fun v => x = v) ⟨_, vertex_eq x, rfl⟩
  rintro _ rfl
  exact h.visit hlt hsweep

theorem mcsMLoop_yields (hg : g.Valid) (it : ℕ) {order : List (Fin n)} (h : EncodesM tail a s)
    (hinv : Mcs.McsMInv g order a) (hlen : it + order.length = n)
    (hloop : Mcs.mcsMLoop g it a = some a') :
    (mcsMLoop g it s).Yields (EncodesM tail a') := by
  induction it generalizing a s order with
  | zero =>
      obtain rfl := Option.some.inj hloop
      exact Except.Yields.pure h
  | succ it ih =>
      obtain ⟨y, hy⟩ := Mcs.exists_notMem_of_length_lt (l := order) (by omega)
      obtain ⟨x, a₁, hround, -, hinv₁⟩ := hinv.step hg hy
      rw [Mcs.mcsMLoop, hround] at hloop
      apply (h.round hinv hround).bind
      intro s₁ hs₁
      exact ih hs₁ hinv₁ (by rw [List.length_cons]; omega) hloop

/-- `McsM` on its static vectors returns what it returns on any others. -/
theorem mcsM_yields (hg : g.Valid) (b : McsMStatics) :
    (mcsM g b).Yields fun r => Mcs.mcsM g = some r.1 := by
  obtain ⟨a, order, hloop, -⟩ := Mcs.mcsMLoop_spec hg n (Mcs.mcsMInv_init g) (Nat.add_zero n)
  have hinit : (mcsMInit n b).Yields
      (EncodesM (b.reach.drop n) (Mcs.McsMState.init n)) := by
    rw [mcsMInit, clearStacks_eq]
    apply Except.Yields.pure
    exact ⟨initZero_eq 0 _, initZero_eq false _, ⟨_, initZero_eq false _⟩, rfl, rfl, rfl, rfl,
      rfl⟩
  apply hinit.bind
  intro s hs
  apply (mcsMLoop_yields hg n hs (Mcs.mcsMInv_init g) (Nat.add_zero n) hloop).bind
  intro s' hs'
  apply Except.Yields.pure
  rw [Mcs.mcsM, hloop, hs'.fill, hs'.order, hs'.isMaximalPoint]
  exact rfl

end Buffered

end Triangulator
