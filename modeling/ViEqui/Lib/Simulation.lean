/-!
# Runs of partial steps, and simulation between two of them

A step takes a state and an operation and gives a state and an answer, or has
no result.  `run` iterates it over a list of operations.  When every step of
the abstract system can be followed by the concrete one with the same answer
(`Simulates`), so can every run (`Simulates.run`).
-/

namespace Simulation

variable {σ τ ο α : Type}

def run (step : σ → ο → Option (σ × α)) : σ → List ο → Option (σ × List α)
  | s, [] => some (s, [])
  | s, op :: ops => do
    let (s, answer) ← step s op
    let (s, answers) ← run step s ops
    return (s, answer :: answers)

theorem run_cons (step : σ → ο → Option (σ × α)) (s : σ) (op : ο)
    (ops : List ο) : run step s (op :: ops) = (step s op).bind fun r =>
      (run step r.1 ops).map fun r' => (r'.1, r.2 :: r'.2) := by
  rw [run]
  cases step s op with
  | none => rfl
  | some r =>
    show (run step r.1 ops).bind _ = (run step r.1 ops).map _
    cases run step r.1 ops <;> rfl

/-- Every step of the run is taken where `P` holds. -/
def Along (step : σ → ο → Option (σ × α)) (P : σ → ο → Prop) :
    σ → List ο → Prop
  | _, [] => True
  | s, op :: ops => P s op ∧
    ∀ s' answer, step s op = some (s', answer) → Along step P s' ops

theorem along_cons {step : σ → ο → Option (σ × α)} {P : σ → ο → Prop} {s s' : σ}
    {op : ο} {answer : α} {ops : List ο} (hop : P s op)
    (hstep : step s op = some (s', answer)) (hrest : Along step P s' ops) :
    Along step P s (op :: ops) := by
  refine ⟨hop, ?_⟩
  intro s₁ answer₁ hstep₁
  rw [hstep] at hstep₁
  cases hstep₁
  exact hrest

/-- The concrete system follows the steps of the abstract one where `P` holds. -/
def SimulatesOn (P : τ → ο → Prop) (concrete : σ → ο → Option (σ × α))
    (abstract : τ → ο → Option (τ × α)) (rel : σ → τ → Prop) : Prop :=
  ∀ s t op t' answer, rel s t → P t op → abstract t op = some (t', answer) →
    ∃ s', concrete s op = some (s', answer) ∧ rel s' t'

/-- The concrete system follows every step of the abstract one. -/
def Simulates (concrete : σ → ο → Option (σ × α))
    (abstract : τ → ο → Option (τ × α)) (rel : σ → τ → Prop) : Prop :=
  ∀ s t op t' answer, rel s t → abstract t op = some (t', answer) →
    ∃ s', concrete s op = some (s', answer) ∧ rel s' t'

section

variable {concrete : σ → ο → Option (σ × α)} {abstract : τ → ο → Option (τ × α)}
  {rel : σ → τ → Prop}

theorem SimulatesOn.run {P : τ → ο → Prop}
    (h : SimulatesOn P concrete abstract rel) {s : σ} {t t' : τ} {ops : List ο}
    {answers : List α} (hrel : rel s t) (halong : Along abstract P t ops)
    (hrun : run abstract t ops = some (t', answers)) :
    ∃ s', Simulation.run concrete s ops = some (s', answers) ∧ rel s' t' := by
  induction ops generalizing s t answers with
  | nil =>
    cases hrun
    exact ⟨s, rfl, hrel⟩
  | cons op ops ih =>
    rw [run_cons, Option.bind_eq_some_iff] at hrun
    obtain ⟨⟨t₁, answer⟩, hstep, hrest⟩ := hrun
    rw [Option.map_eq_some_iff] at hrest
    obtain ⟨⟨t₂, rest⟩, hrest, heq⟩ := hrest
    cases heq
    obtain ⟨s₁, hstep', hrel₁⟩ := h s t op t₁ answer hrel halong.1 hstep
    obtain ⟨s₂, hrest', hrel₂⟩ := ih hrel₁ (halong.2 t₁ answer hstep) hrest
    refine ⟨s₂, ?_, hrel₂⟩
    rw [run_cons, hstep', Option.bind_some, hrest']
    rfl

theorem along_true (t : τ) (ops : List ο) :
    Along abstract (fun _ _ => True) t ops := by
  induction ops generalizing t with
  | nil => trivial
  | cons op ops ih => exact ⟨trivial, fun t' _ _ => ih t'⟩

theorem Simulates.run (h : Simulates concrete abstract rel) {s : σ} {t t' : τ}
    {ops : List ο} {answers : List α} (hrel : rel s t)
    (hrun : run abstract t ops = some (t', answers)) :
    ∃ s', Simulation.run concrete s ops = some (s', answers) ∧ rel s' t' := by
  have hon : SimulatesOn (fun _ _ => True) concrete abstract rel :=
    fun s t op t' answer hrel _ hstep => h s t op t' answer hrel hstep
  exact hon.run hrel (along_true t ops) hrun

end

end Simulation
