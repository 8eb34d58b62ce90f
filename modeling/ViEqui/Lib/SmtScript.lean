import Mathlib.Data.Nat.Digits.Lemmas
import Mathlib.Order.Basic

/-!
# Scripts of an SMT solver

Declarations and assertions over integers and bit vectors: what it means that a script is
well-sorted, and what its models are.  A bit vector is compared as an unsigned number, and
a hexadecimal literal has four bits for each of its digits.
-/

namespace SmtScript

/-- A sort. -/
inductive Srt where
  | int
  | bitVec (w : Nat)
deriving DecidableEq, Repr

/-- A variable, a decimal literal, or a hexadecimal one with its digits. -/
inductive Term where
  | var (x : Nat)
  | num (n : Nat)
  | hex (digits : List Nat)
deriving DecidableEq, Repr

inductive Formula where
  | bvult (a b : Term)
  | lt (a b : Term)
  | ge (a b : Term)
  | or (f g : Formula)
  | distinct (ts : List Term)
deriving Repr

inductive Command where
  | declareFun (x : Nat) (s : Srt)
  | assert (f : Formula)
deriving Repr

abbrev Script := List Command

/-! ## Sorts -/

/-- The sorts of the variables that are declared. -/
abbrev Context := Nat → Option Srt

variable {Γ Γ' : Context}

def Term.sort (Γ : Context) : Term → Option Srt
  | var x => Γ x
  | num _ => some .int
  | hex digits => some (.bitVec (4 * digits.length))

def Formula.WellSorted (Γ : Context) : Formula → Prop
  | bvult a b => ∃ w, a.sort Γ = some (.bitVec w) ∧ b.sort Γ = some (.bitVec w)
  | lt a b => a.sort Γ = some .int ∧ b.sort Γ = some .int
  | ge a b => a.sort Γ = some .int ∧ b.sort Γ = some .int
  | or f g => f.WellSorted Γ ∧ g.WellSorted Γ
  | distinct ts => ∃ s, ∀ t ∈ ts, t.sort Γ = some s

def Context.declare (Γ : Context) (x : Nat) (s : Srt) : Context :=
  fun y => if y = x then some s else Γ y

/-- Each variable is declared once, and before it is used. -/
def WellSorted : Context → Script → Prop
  | _, [] => True
  | Γ, .declareFun x s :: script => Γ x = none ∧ WellSorted (Γ.declare x s) script
  | Γ, .assert f :: script => f.WellSorted Γ ∧ WellSorted Γ script

/-- The declarations of a script. -/
def after : Context → Script → Context
  | Γ, [] => Γ
  | Γ, .declareFun x s :: script => after (Γ.declare x s) script
  | Γ, .assert _ :: script => after Γ script

theorem wellSorted_append {script script' : Script} :
    WellSorted Γ (script ++ script') ↔
      WellSorted Γ script ∧ WellSorted (after Γ script) script' := by
  induction script generalizing Γ with
  | nil => exact (iff_of_eq (true_and _)).symm
  | cons c script ih =>
    cases c with
    | declareFun x s =>
      show Γ x = none ∧ WellSorted _ (script ++ script') ↔ (Γ x = none ∧ _) ∧ _
      rw [ih, and_assoc]
      rfl
    | assert f =>
      show f.WellSorted Γ ∧ WellSorted _ (script ++ script') ↔ (f.WellSorted Γ ∧ _) ∧ _
      rw [ih, and_assoc]
      rfl

theorem after_append (script script' : Script) :
    after Γ (script ++ script') = after (after Γ script) script' := by
  induction script generalizing Γ with
  | nil => rfl
  | cons c script ih => cases c <;> exact ih

/-! ## Models -/

/-- The values of a sort. -/
def Srt.Dom : Srt → Int → Prop
  | int, _ => True
  | bitVec w, v => 0 ≤ v ∧ v < 2 ^ w

/-- The value of a literal, digit by digit. -/
def Term.value (σ : Nat → Int) : Term → Int
  | var x => σ x
  | num n => n
  | hex digits => (Nat.ofDigits 16 digits.reverse : Nat)

def Formula.Holds (σ : Nat → Int) : Formula → Prop
  | bvult a b => a.value σ < b.value σ
  | lt a b => a.value σ < b.value σ
  | ge a b => b.value σ ≤ a.value σ
  | or f g => f.Holds σ ∨ g.Holds σ
  | distinct ts => (ts.map (Term.value σ)).Nodup

def Command.Holds (σ : Nat → Int) : Command → Prop
  | declareFun x s => s.Dom (σ x)
  | assert f => f.Holds σ

/-- The variables have values of their sorts, and what is asserted holds. -/
def Models (σ : Nat → Int) (script : Script) : Prop := ∀ c ∈ script, c.Holds σ

variable {σ : Nat → Int}

theorem models_append {script script' : Script} :
    Models σ (script ++ script') ↔ Models σ script ∧ Models σ script' := List.forall_mem_append

theorem models_flatMap {ι : Type} {l : List ι} {f : ι → Script} :
    Models σ (l.flatMap f) ↔ ∀ i ∈ l, Models σ (f i) := by
  unfold Models
  constructor
  · intro h i hi c hc
    exact h c (List.mem_flatMap.mpr ⟨i, hi, hc⟩)
  · intro h c hc
    obtain ⟨i, hi, hc⟩ := List.mem_flatMap.mp hc
    exact h i hi c hc

/-! ## Hexadecimal literals -/

/-- The digits of a number, with zeros in front up to the width `w`. -/
def hexDigits (w n : Nat) : List Nat := List.leftpad w 0 (Nat.digits 16 n).reverse

theorem length_hexDigits (w n : Nat) :
    (hexDigits w n).length = max w (Nat.digits 16 n).length := by
  rw [hexDigits, List.length_leftpad, List.length_reverse]

/-- The width is enough for the numbers that have so many digits. -/
theorem length_hexDigits_eq_iff {w n : Nat} : (hexDigits w n).length = w ↔ n < 16 ^ w := by
  rw [length_hexDigits, max_eq_left_iff, Nat.digits_length_le_iff (by omega)]

theorem value_hexDigits (w n : Nat) : (Term.hex (hexDigits w n)).value σ = n := by
  show ((Nat.ofDigits 16 (hexDigits w n).reverse : Nat) : Int) = n
  rw [hexDigits, List.leftpad, List.reverse_append, List.reverse_reverse, List.reverse_replicate,
    Nat.ofDigits_append_replicate_zero, Nat.ofDigits_digits]

end SmtScript
