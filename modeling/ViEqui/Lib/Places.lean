import Mathlib.Data.List.Basic

/-!
# Numbered places

The values of a program, numbered in the order of their construction.  A place
is empty before its value is there, and after the value was destroyed.
-/

namespace Places

variable {α : Type}

def get (l : List (Option α)) (i : Nat) : Option α := (l[i]?).join

variable {l : List (Option α)} {i : Nat}

theorem lt_of_get {x : α} (h : get l i = some x) : i < l.length := by
  by_cases hi : i < l.length
  · exact hi
  · rw [get, List.getElem?_eq_none (Nat.le_of_not_lt hi)] at h
    cases h

theorem get_set (hi : i < l.length) (x : Option α) (j : Nat) :
    get (l.set i x) j = if j = i then x else get l j := by
  unfold get
  by_cases heq : j = i
  · rw [if_pos heq, heq, List.getElem?_set_self hi]
    rfl
  · rw [if_neg heq, List.getElem?_set_ne (Ne.symm heq)]

theorem get_set_ne {j : Nat} (hne : j ≠ i) (x : Option α) :
    get (l.set i x) j = get l j := by
  unfold get
  rw [List.getElem?_set_ne (Ne.symm hne)]

/-- One more empty place. -/
theorem get_concat_none (l : List (Option α)) (j : Nat) :
    get (l ++ [none]) j = get l j := by
  unfold get
  by_cases hlt : j < l.length
  · rw [List.getElem?_append_left hlt]
  · rw [List.getElem?_append_right (Nat.le_of_not_lt hlt),
      List.getElem?_eq_none (Nat.le_of_not_lt hlt)]
    cases j - l.length <;> rfl

theorem mem_iff {x : α} : some x ∈ l ↔ ∃ i, get l i = some x := by
  rw [List.mem_iff_getElem?]
  refine exists_congr fun i => ?_
  unfold get
  rw [Option.join_eq_some_iff]

/-- How many values have the property. -/
def count (p : α → Bool) (l : List (Option α)) : Nat := l.countP fun x => x.any p

theorem count_concat_none (p : α → Bool) (l : List (Option α)) :
    count p (l ++ [none]) = count p l := by
  unfold count
  rw [List.countP_append]
  rfl

theorem count_eq_zero_iff {p : α → Bool} :
    count p l = 0 ↔ ∀ i x, get l i = some x → p x = false := by
  unfold count
  rw [List.countP_eq_zero]
  constructor
  · intro h i x hx
    have hnot := h (some x) (mem_iff.mpr ⟨i, hx⟩)
    rw [Option.any_some, Bool.not_eq_true] at hnot
    exact hnot
  · intro h x hx hany
    cases x with
    | none => cases hany
    | some x =>
      obtain ⟨i, hi⟩ := mem_iff.mp hx
      rw [Option.any_some, h i x hi] at hany
      cases hany

theorem count_set {p : α → Bool} (hi : i < l.length) (x : Option α) :
    count p (l.set i x) + (if (get l i).any p then 1 else 0) =
      count p l + if x.any p then 1 else 0 := by
  have hget : get l i = l[i] := by
    rw [get, List.getElem?_eq_getElem hi]
    rfl
  unfold count
  rw [List.countP_set hi, ← hget]
  by_cases hold : ((get l i).any p) = true
  · have hpos : 0 < l.countP fun x => x.any p := by
      rw [List.countP_pos_iff]
      exact ⟨_, List.getElem_mem hi, by rw [← hget]; exact hold⟩
    rw [if_pos hold]
    omega
  · rw [if_neg hold]
    omega

end Places
