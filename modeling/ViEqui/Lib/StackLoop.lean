import Mathlib.Data.Multiset.AddSub
import Mathlib.Logic.Hydra
import Mathlib.Logic.Relation
import Mathlib.Order.WellFoundedSet

/-!
# Loops that work off a stack

A round of the loop pops an element and pushes what `pop` gives for it; the loop is over when
the stack is empty, or when `pop` gives nothing.

* `run_sound`: what each round keeps holds where the loop is over.
* `ends_of_rank`: the loop ends when each round lowers a rank, or pushes only elements below
  the one that it pops.
* `ends_iff_settles`: rounds that raise the rank are harmless as long as they stop.
-/

namespace StackLoop

open Relation

variable {σ α : Type} (pop : σ → α → Option (σ × List α))

/-- Whether the stack is worked off; `none` when the fuel does not suffice. -/
def run : Nat → σ → List α → Option Bool
  | _, _, [] => some true
  | 0, _, _ :: _ => none
  | fuel + 1, s, a :: l =>
    match pop s a with
    | none => some false
    | some (s', new) => run fuel s' (new ++ l)

/-- A round of the loop. -/
inductive Step : σ × List α → σ × List α → Prop where
  | pop {s s' : σ} {a : α} {l new : List α} :
      pop s a = some (s', new) → Step (s, a :: l) (s', new ++ l)

/-- The loop is over after finitely many rounds. -/
def Ends (c : σ × List α) : Prop := ∃ fuel b, run pop fuel c.1 c.2 = some b

/-- From some round on, none pops an element that is bad in its state. -/
def Settles (Bad : σ → α → Prop) (c : σ × List α) : Prop :=
  ∃ c', ReflTransGen (Step pop) c c' ∧
    ∀ s a l, ReflTransGen (Step pop) c' (s, a :: l) → pop s a ≠ none → ¬ Bad s a

variable {pop} {s s' : σ} {a : α} {l new : List α} {c c' : σ × List α} {fuel : Nat} {b : Bool}

theorem run_succ (h : pop s a = some (s', new)) :
    run pop (fuel + 1) s (a :: l) = run pop fuel s' (new ++ l) := by
  rw [run, h]

theorem run_succ_none (h : pop s a = none) : run pop (fuel + 1) s (a :: l) = some false := by
  rw [run, h]

theorem Step.eq (h : Step pop (s, a :: l) c') :
    ∃ s' new, pop s a = some (s', new) ∧ c' = (s', new ++ l) := by
  cases h with
  | pop h => exact ⟨_, _, h, rfl⟩

/-- What each round keeps holds where the loop is over. -/
theorem run_sound (Inv : σ → List α → Prop)
    (hstep : ∀ s a l s' new, Inv s (a :: l) → pop s a = some (s', new) → Inv s' (new ++ l))
    (h : Inv s l) (hrun : run pop fuel s l = some b) :
    (b = true ∧ ∃ s', Inv s' []) ∨
      (b = false ∧ ∃ s' a l', Inv s' (a :: l') ∧ pop s' a = none) := by
  induction fuel generalizing s l with
  | zero =>
    cases l with
    | nil => exact Or.inl ⟨(Option.some.inj hrun).symm, s, h⟩
    | cons a l => exact absurd hrun (by simp [run])
  | succ fuel ih =>
    cases l with
    | nil => exact Or.inl ⟨(Option.some.inj hrun).symm, s, h⟩
    | cons a l =>
      cases hpop : pop s a with
      | none =>
        rw [run_succ_none hpop] at hrun
        exact Or.inr ⟨(Option.some.inj hrun).symm, s, a, l, h, hpop⟩
      | some r =>
        rw [run_succ hpop] at hrun
        exact ih (hstep s a l _ _ h hpop) hrun

/-! ## Loops that end -/

theorem Ends.of_step (h : Step pop c c') (hends : Ends pop c') : Ends pop c := by
  cases h with
  | pop hpop =>
    obtain ⟨fuel, b, hrun⟩ := hends
    exact ⟨fuel + 1, b, (run_succ hpop).trans hrun⟩

theorem Ends.of_steps (h : ReflTransGen (Step pop) c c') (hends : Ends pop c') : Ends pop c := by
  induction h using ReflTransGen.head_induction_on with
  | refl => exact hends
  | head hstep _ ih => exact ih.of_step hstep

/-- A loop ends when there is no infinite sequence of rounds. -/
theorem ends_of_acc (h : Acc (fun c' c => Step pop c c') c) : Ends pop c := by
  induction h with
  | intro c _ ih =>
    obtain ⟨s, l⟩ := c
    cases l with
    | nil => exact ⟨0, true, rfl⟩
    | cons a l =>
      cases hpop : pop s a with
      | none => exact ⟨1, false, run_succ_none hpop⟩
      | some r => exact (ih _ (Step.pop hpop)).of_step (Step.pop hpop)

/-- Where a loop ends, no further round is possible. -/
theorem Ends.stuck (h : Ends pop c) :
    ∃ c', ReflTransGen (Step pop) c c' ∧ ∀ c'', ¬ Step pop c' c'' := by
  obtain ⟨s, l⟩ := c
  obtain ⟨fuel, b, hrun⟩ := h
  induction fuel generalizing s l with
  | zero =>
    cases l with
    | nil => exact ⟨_, ReflTransGen.refl, by intro c'' h; cases h⟩
    | cons a l => exact absurd hrun (by simp [run])
  | succ fuel ih =>
    cases l with
    | nil => exact ⟨_, ReflTransGen.refl, by intro c'' h; cases h⟩
    | cons a l =>
      cases hpop : pop s a with
      | none =>
        refine ⟨_, ReflTransGen.refl, ?_⟩
        intro c'' hstep
        obtain ⟨s', new, hsome, -⟩ := hstep.eq
        rw [hpop] at hsome
        cases hsome
      | some r =>
        have hrest : run pop fuel r.1 (r.2 ++ l) = some b := (run_succ hpop).symm.trans hrun
        obtain ⟨c', hsteps, hstuck⟩ := ih r.1 (r.2 ++ l) hrest
        exact ⟨c', hsteps.head (Step.pop hpop), hstuck⟩

/-- A loop ends when each round lowers the rank of the state, or keeps it and pushes only
elements below the one that it pops. -/
theorem ends_of_rank (Inv : σ → List α → Prop) (rank : σ → Nat) {lt : α → α → Prop}
    (hlt : WellFounded lt)
    (hstep : ∀ s a l s' new, Inv s (a :: l) → pop s a = some (s', new) →
      Inv s' (new ++ l) ∧ (rank s' < rank s ∨ rank s' ≤ rank s ∧ ∀ b ∈ new, lt b a))
    (h : Inv s l) : Ends pop (s, l) := by
  apply ends_of_acc
  have hwf : WellFounded (InvImage (Prod.Lex (· < ·) (CutExpand lt))
      (fun c : σ × List α => (rank c.1, (c.2 : Multiset α)))) :=
    InvImage.wf _ (WellFounded.prod_lex Nat.lt_wfRel.wf hlt.cutExpand)
  -- the rank comes first, and the stack is compared as a multiset
  suffices hall : ∀ c : σ × List α, Inv c.1 c.2 → Acc (fun c' c => Step pop c c') c from
    hall (s, l) h
  intro c
  induction c using hwf.induction with
  | h c ih =>
    intro hc
    constructor
    intro c' hround
    cases hround with
    | @pop s s' a l new hpop =>
      obtain ⟨hinv, hless⟩ := hstep s a l s' new hc hpop
      refine ih _ ?_ hinv
      have hexpand (hbelow : ∀ b ∈ new, lt b a) :
          CutExpand lt ((new ++ l : List α) : Multiset α) ((a :: l : List α) : Multiset α) := by
        refine ⟨(new : Multiset α), a, hbelow, ?_⟩
        rw [← Multiset.coe_add, ← Multiset.cons_coe, ← Multiset.singleton_add]
        rw [add_comm ((new : Multiset α) + _), ← add_assoc, add_right_comm]
      rcases hless with hrank | ⟨hrank, hbelow⟩
      · exact Prod.Lex.left _ _ hrank
      · rcases Nat.lt_or_eq_of_le hrank with hlow | heq
        · exact Prod.Lex.left _ _ hlow
        · show Prod.Lex _ _ (rank s', _) (rank s, _)
          rw [heq]
          exact Prod.Lex.right _ (hexpand hbelow)

/-- A relation without cycles that holds on a finite set gives such an order of elements. -/
theorem wellFounded_of_acyclic {r : α → α → Prop} {S : Set α} (hS : S.Finite)
    (hr : ∀ a b, r a b → a ∈ S ∧ b ∈ S) (h : ∀ a, ¬ TransGen r a a) : WellFounded r := by
  have hirrefl : Std.Irrefl (TransGen r) := ⟨h⟩
  have htrans : IsTrans α (TransGen r) := ⟨fun _ _ _ => TransGen.trans⟩
  have horder : IsStrictOrder α (TransGen r) := ⟨⟩
  have hwf := Set.wellFoundedOn_iff.mp (hS.wellFoundedOn (r := TransGen r))
  exact Subrelation.wf (fun hab => ⟨TransGen.single hab, hr _ _ hab⟩) hwf

/-- Where the rounds that pop no bad element lower the rank or push nothing, the loop ends if
and only if the others stop. -/
theorem ends_iff_settles (Inv : σ → List α → Prop) (rank : σ → Nat) {Bad : σ → α → Prop}
    (hinv : ∀ s a l s' new, Inv s (a :: l) → pop s a = some (s', new) → Inv s' (new ++ l))
    (hrank : ∀ s a l s' new, Inv s (a :: l) → pop s a = some (s', new) → ¬ Bad s a →
      rank s' < rank s ∨ rank s' ≤ rank s ∧ new = [])
    (h : Inv s l) : Ends pop (s, l) ↔ Settles pop Bad (s, l) := by
  constructor
  · intro hends
    obtain ⟨c', hsteps, hstuck⟩ := hends.stuck
    refine ⟨c', hsteps, ?_⟩
    intro s' a l' hreach hpop
    obtain ⟨r, hr⟩ := Option.ne_none_iff_exists'.mp hpop
    rcases ReflTransGen.cases_head hreach with heq | ⟨c'', hstep, -⟩
    · rw [heq] at hstuck
      exact absurd (Step.pop hr) (hstuck _)
    · exact absurd hstep (hstuck c'')
  · rintro ⟨⟨s₁, l₁⟩, hsteps, hgood⟩
    have hinv₁ : Inv s₁ l₁ := by
      have hall : ∀ c', ReflTransGen (Step pop) (s, l) c' → Inv c'.1 c'.2 := by
        intro c' hc
        induction hc with
        | refl => exact h
        | tail _ hstep ih =>
          cases hstep with
          | pop hpop => exact hinv _ _ _ _ _ ih hpop
      exact hall _ hsteps
    refine Ends.of_steps hsteps ?_
    -- behind this round no popped element is bad
    have hnone : WellFounded fun _ _ : α => False := ⟨fun a => ⟨a, fun _ h => h.elim⟩⟩
    apply ends_of_rank (fun s l => Inv s l ∧ ReflTransGen (Step pop) (s₁, l₁) (s, l)) rank hnone
    · rintro s a l s' new ⟨hs, hreach⟩ hpop
      refine ⟨⟨hinv _ _ _ _ _ hs hpop, hreach.tail (Step.pop hpop)⟩, ?_⟩
      have hbad := hgood s a l hreach (by rw [hpop]; exact Option.some_ne_none _)
      rcases hrank s a l s' new hs hpop hbad with hlow | ⟨hle, hnil⟩
      · exact Or.inl hlow
      · exact Or.inr ⟨hle, by rw [hnil]; simp⟩
    · exact ⟨hinv₁, ReflTransGen.refl⟩

end StackLoop
