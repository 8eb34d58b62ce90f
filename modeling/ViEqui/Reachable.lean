import ViEqui.Operations

/-!
# The states between two steps of the interpreter

`Interp.step` is one iteration of the loop of `Interpreter::run`, and
`Interp.Reachable` holds of the states between two iterations, in any
execution of an exploration.  `Interp.advance` computes such states.
-/

namespace ViEqui

namespace Interp

/-- One iteration of the loop of `Interpreter::run`.  There is no interpreter
behind it when `schedule` ends the execution. -/
def step (env : Env) (prog : Program) (b : Builder) (it : Interp) :
    Option (Builder × Option Interp) := do
  if it.rerun then
    let (b, it) ← round env prog b it b.currentThread
    return (b, some it)
  else
    match ← b.schedule env with
    | (b, none) => return (b, none)
    | (b, some t) =>
      let (b, it) ← round env prog b it t
      return (b, some it)

/-- The loop is the iteration of its body. -/
theorem run_succ (env : Env) (prog : Program) (fuel : Nat) (b : Builder)
    (it : Interp) :
    run env prog (fuel + 1) b it = (step env prog b it).bind fun r =>
      match r.2 with
      | none => some (r.1, it)
      | some it' => run env prog fuel r.1 it' := by
  rw [run, step]
  cases it.rerun with
  | true =>
    cases hround : round env prog b it b.currentThread with
    | none => rfl
    | some r => rfl
  | false =>
    cases hschedule : b.schedule env with
    | none => rfl
    | some r =>
      obtain ⟨b1, proc⟩ := r
      cases proc with
      | none => rfl
      | some t =>
        show ((round env prog b1 it t).bind fun r => run env prog fuel r.1 r.2) =
          ((round env prog b1 it t).bind fun r => some (r.1, some r.2)).bind _
        cases round env prog b1 it t with
        | none => rfl
        | some r => rfl

/-- The states between two steps, over all executions of an exploration. -/
inductive Reachable (env : Env) (prog : Program) : Builder → Interp → Prop
  | start (checkOptimality : Bool) :
    Reachable env prog (Builder.construct checkOptimality) {}
  | step {b b' : Builder} {it it' : Interp} :
    Reachable env prog b it → step env prog b it = some (b', some it') →
      Reachable env prog b' it'
  | reset {b b1 b' : Builder} {it : Interp} :
    Reachable env prog b it → step env prog b it = some (b1, none) →
      b1.reset env = some (b', true) → Reachable env prog b' {}

theorem reaches_step {env : Env} {prog : Program} {b b' : Builder}
    {it : Interp} {it' : Option Interp}
    (h : step env prog b it = some (b', it')) : Builder.Reaches env b b' := by
  unfold step at h
  simp only [Option.bind_eq_bind] at h
  split at h
  · rw [Option.bind_eq_some_iff] at h
    obtain ⟨⟨b1, it1⟩, hround, h⟩ := h
    cases h
    exact reaches_round hround
  · rw [Option.bind_eq_some_iff] at h
    obtain ⟨⟨b1, proc⟩, hschedule, h⟩ := h
    have hfirst : Builder.Reaches env b b1 :=
      .of_apply .schedule (by rw [Builder.apply, hschedule]; rfl)
    cases proc with
    | none =>
      cases h
      exact hfirst
    | some t =>
      simp only [Option.bind_eq_some_iff] at h
      obtain ⟨⟨b2, it2⟩, hround, h⟩ := h
      cases h
      exact .trans hfirst (reaches_round hround)

/-- A state between two steps is the result of some calls. -/
theorem Reachable.reaches {env : Env} {prog : Program} {b : Builder}
    {it : Interp} (h : Reachable env prog b it) :
    ∃ checkOptimality,
      Builder.Reaches env (Builder.construct checkOptimality) b := by
  induction h with
  | start checkOptimality => exact ⟨checkOptimality, .refl env _⟩
  | step _ hstep ih =>
    obtain ⟨checkOptimality, ih⟩ := ih
    exact ⟨checkOptimality, ih.trans (reaches_step hstep)⟩
  | reset _ hstep hreset ih =>
    obtain ⟨checkOptimality, ih⟩ := ih
    have hlast : Builder.Reaches env _ _ :=
      .of_apply .reset (by rw [Builder.apply, hreset]; rfl)
    exact ⟨checkOptimality, (ih.trans (reaches_step hstep)).trans hlast⟩

/-- The state after a number of steps, with the executions one after the
other. -/
def advance (env : Env) (prog : Program) :
    Nat → Builder → Interp → Option (Builder × Interp)
  | 0, b, it => some (b, it)
  | n + 1, b, it =>
    match step env prog b it with
    | none => none
    | some (b, some it) => advance env prog n b it
    | some (b, none) =>
      match b.reset env with
      | some (b, true) => advance env prog n b {}
      | _ => none

theorem Reachable.advance {env : Env} {prog : Program} {n : Nat}
    {b b' : Builder} {it it' : Interp} (h : Reachable env prog b it)
    (hadvance : Interp.advance env prog n b it = some (b', it')) :
    Reachable env prog b' it' := by
  induction n generalizing b it with
  | zero =>
    cases hadvance
    exact h
  | succ n ih =>
    unfold Interp.advance at hadvance
    split at hadvance
    · cases hadvance
    · next b1 it1 hstep => exact ih (.step h hstep) hadvance
    · next b1 hstep =>
      split at hadvance
      · next b2 hreset => exact ih (.reset h hstep hreset) hadvance
      · cases hadvance

end Interp

end ViEqui
