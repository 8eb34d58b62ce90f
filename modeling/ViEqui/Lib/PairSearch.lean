import Mathlib.Data.List.Basic

/-!
# The first pair of a list, and loops that fill a buffer

* `firstPair_some`: the double loop over the positions `i < j` answers the pair
  at the lexicographically first positions that qualify.
* `firstPair_map`: the search over a list of images.
* `fill_eq_map`: iterations that write a slot of their own give the same
  buffer in every order.
-/

namespace PairSearch

variable {α β : Type}

/-! ## The first pair -/

/-- The double loop over the positions `i < j`, up to the first pair that
qualifies. -/
def firstPair (p : α → α → Bool) : List α → Option (α × α)
  | [] => none
  | a :: s =>
    match s.find? (p a) with
    | some b => some (a, b)
    | none => firstPair p s

/-- The elements at the positions `i` and `j` qualify. -/
def Qualifies (p : α → α → Bool) (s : List α) (i j : Nat) : Prop :=
  i < j ∧ ∃ a b, s[i]? = some a ∧ s[j]? = some b ∧ p a b

/-- The positions `i` and `j` are the first ones that qualify, in lexicographic
order. -/
def First (p : α → α → Bool) (s : List α) (i j : Nat) : Prop :=
  Qualifies p s i j ∧ ∀ k l, k < i ∨ k = i ∧ l < j → ¬Qualifies p s k l

theorem qualifies_cons_succ {p : α → α → Bool} {a : α} {s : List α} {i j : Nat} :
    Qualifies p (a :: s) (i + 1) (j + 1) ↔ Qualifies p s i j := by
  simp [Qualifies]

theorem qualifies_cons_zero {p : α → α → Bool} {a : α} {s : List α} {j : Nat} :
    Qualifies p (a :: s) 0 (j + 1) ↔ ∃ b, s[j]? = some b ∧ p a b := by
  simp [Qualifies]

theorem firstPair_some {p : α → α → Bool} {s : List α} {a b : α}
    (h : firstPair p s = some (a, b)) :
    ∃ i j, First p s i j ∧ s[i]? = some a ∧ s[j]? = some b := by
  induction s with
  | nil => cases h
  | cons e s ih =>
    rw [firstPair] at h
    split at h
    · next b' hfind =>
      obtain ⟨rfl, rfl⟩ : e = a ∧ b' = b := by simpa using h
      obtain ⟨hp, j, hj, hb, hbefore⟩ := List.find?_eq_some_iff_getElem.mp hfind
      have hget : s[j]? = some b' := by rw [List.getElem?_eq_getElem hj, hb]
      refine ⟨0, j + 1, ⟨qualifies_cons_zero.mpr ⟨b', hget, hp⟩, ?_⟩, rfl, hget⟩
      intro k l hkl hq
      have hlt := hq.1
      obtain ⟨l, rfl⟩ : ∃ m, l = m + 1 := ⟨l - 1, by omega⟩
      obtain rfl : k = 0 := by omega
      obtain ⟨c, hc, hpc⟩ := qualifies_cons_zero.mp hq
      have hl : l < j := by omega
      have hnot := hbefore l hl
      rw [List.getElem?_eq_getElem (by omega)] at hc
      rw [Option.some.inj hc, hpc] at hnot
      cases hnot
    · next hnone =>
      obtain ⟨i, j, ⟨hq, hfirst⟩, hi, hj⟩ := ih h
      refine ⟨i + 1, j + 1, ⟨qualifies_cons_succ.mpr hq, ?_⟩, hi, hj⟩
      intro k l hkl hq'
      have hlt := hq'.1
      obtain ⟨l, rfl⟩ : ∃ m, l = m + 1 := ⟨l - 1, by omega⟩
      cases k with
      | zero =>
        obtain ⟨c, hc, hp⟩ := qualifies_cons_zero.mp hq'
        exact List.find?_eq_none.mp hnone c (List.mem_of_getElem? hc) hp
      | succ k => exact hfirst k l (by omega) (qualifies_cons_succ.mp hq')

theorem firstPair_map (p : β → β → Bool) (f : α → β) (s : List α) :
    firstPair p (s.map f) =
      (firstPair (fun a b => p (f a) (f b)) s).map fun ab => (f ab.1, f ab.2) := by
  induction s with
  | nil => rfl
  | cons a s ih =>
    rw [List.map_cons, firstPair, firstPair, List.find?_map]
    show (match (s.find? fun b => p (f a) (f b)).map f with
      | some b => some (f a, b)
      | none => firstPair p (s.map f)) = _
    cases s.find? fun b => p (f a) (f b) with
    | none => exact ih
    | some b => rfl

/-! ## Loops that fill a buffer -/

/-- The iterations `order` of a loop in which iteration `i` writes slot `i`. -/
def fill (f : Nat → β) (buffer : List β) (order : List Nat) : List β :=
  order.foldl (fun buffer i => buffer.set i (f i)) buffer

@[simp] theorem length_fill (f : Nat → β) (buffer : List β) (order : List Nat) :
    (fill f buffer order).length = buffer.length := by
  induction order generalizing buffer with
  | nil => rfl
  | cons i order ih => exact (ih _).trans List.length_set

theorem getElem?_fill (f : Nat → β) (buffer : List β) (order : List Nat) {k : Nat}
    (hk : k < buffer.length) :
    (fill f buffer order)[k]? = if k ∈ order then some (f k) else buffer[k]? := by
  induction order generalizing buffer with
  | nil => simp [fill]
  | cons i order ih =>
    show (fill f (buffer.set i (f i)) order)[k]? = _
    rw [ih _ (by rwa [List.length_set])]
    by_cases hmem : k ∈ order
    · simp [hmem]
    · by_cases hi : i = k
      · subst hi
        simp [hmem, hk]
      · simp [hmem, hi, Ne.symm hi]

/-- The order of the iterations does not matter. -/
theorem fill_eq_map (f : Nat → β) {buffer : List β} {order : List Nat}
    (h : order.Perm (List.range buffer.length)) :
    fill f buffer order = (List.range buffer.length).map f := by
  refine List.ext_getElem? fun k => ?_
  by_cases hk : k < buffer.length
  · have hmem : k ∈ order := h.mem_iff.mpr (List.mem_range.mpr hk)
    rw [getElem?_fill f buffer order hk, if_pos hmem]
    simp [hk]
  · rw [List.getElem?_eq_none (by simpa using hk), List.getElem?_eq_none (by simpa using hk)]

end PairSearch
