import Mathlib.Data.List.Basic

/-!
# Removal by a swap with the last element

An unordered removal from a vector moves the last element into the place of
the removed one.  `restoreAt` takes it back: it appends the element and swaps
it into its place.  `eraseScan` removes while it goes over the vector by index:
what is left of the vector is in another order after a removal
(`removeAt_append_cons`), and the result is a filter up to the order.
-/

namespace SwapRemove

variable {α : Type}

/-- Swap the element at `pos` with the last one and drop it. -/
def removeAt (l : List α) (pos : Nat) : List α :=
  match l.getLast? with
  | some x => (l.set pos x).dropLast
  | none => l

/-- Append `x` and swap it with the element at `pos`. -/
def restoreAt (l : List α) (pos : Nat) (x : α) : List α :=
  match l[pos]? with
  | some y => l.set pos x ++ [y]
  | none => l ++ [x]

/-- The last position of `x`. -/
def lastIdxOf [DecidableEq α] (l : List α) (x : α) : Nat :=
  l.length - 1 - l.reverse.idxOf x

theorem getElem?_lastIdxOf [DecidableEq α] {l : List α} {x : α} (h : x ∈ l) :
    l[lastIdxOf l x]? = some x := by
  have hlt : l.reverse.idxOf x < l.reverse.length :=
    List.idxOf_lt_length_of_mem (List.mem_reverse.mpr h)
  have hget : l.reverse[l.reverse.idxOf x]? = some x := by
    rw [List.getElem?_eq_getElem hlt, List.getElem_idxOf hlt]
  rw [List.length_reverse] at hlt
  rw [List.getElem?_reverse hlt] at hget
  exact hget

theorem removeAt_concat_of_lt {l : List α} {pos : Nat} (z : α)
    (h : pos < l.length) : removeAt (l ++ [z]) pos = l.set pos z := by
  unfold removeAt
  rw [List.getLast?_concat]
  show ((l ++ [z]).set pos z).dropLast = l.set pos z
  rw [List.set_append_left _ _ h, List.dropLast_concat]

theorem removeAt_concat_length (l : List α) (z : α) :
    removeAt (l ++ [z]) l.length = l := by
  unfold removeAt
  rw [List.getLast?_concat]
  show ((l ++ [z]).set l.length z).dropLast = l
  rw [List.set_append_right _ _ (Nat.le_refl _), Nat.sub_self]
  exact List.dropLast_concat

/-- The removal is undone. -/
theorem restoreAt_removeAt {l : List α} {pos : Nat} {x : α}
    (h : l[pos]? = some x) : restoreAt (removeAt l pos) pos x = l := by
  rcases List.eq_nil_or_concat l with rfl | ⟨l, z, rfl⟩
  · cases h
  · rw [List.concat_eq_append] at h ⊢
    obtain ⟨hlt, hx⟩ := List.getElem?_eq_some_iff.mp h
    rw [List.length_append, List.length_singleton] at hlt
    by_cases hpos : pos < l.length
    · rw [removeAt_concat_of_lt z hpos]
      unfold restoreAt
      rw [List.getElem?_set_self hpos]
      show (l.set pos z).set pos x ++ [z] = l ++ [z]
      rw [List.getElem_append_left hpos] at hx
      rw [List.set_set, ← hx, List.set_getElem_self]
    · obtain rfl : pos = l.length := by omega
      rw [removeAt_concat_length]
      unfold restoreAt
      rw [List.getElem?_eq_none (Nat.le_refl _)]
      simp only [List.getElem_concat_length] at hx
      rw [hx]

theorem mem_removeAt_of_ne [DecidableEq α] {l : List α} {pos : Nat} {x y : α}
    (hx : l[pos]? = some x) (hy : y ∈ l) (hne : y ≠ x) : y ∈ removeAt l pos := by
  have hrestore : y ∈ restoreAt (removeAt l pos) pos x := by
    rw [restoreAt_removeAt hx]
    exact hy
  unfold restoreAt at hrestore
  split at hrestore
  · next z hz =>
    rcases List.mem_append.mp hrestore with hmem | hmem
    · rcases List.mem_or_eq_of_mem_set hmem with hmem | rfl
      · exact hmem
      · exact absurd rfl hne
    · rw [List.mem_singleton.mp hmem]
      exact List.mem_of_getElem? hz
  · rcases List.mem_append.mp hrestore with hmem | hmem
    · exact hmem
    · exact absurd (List.mem_singleton.mp hmem) hne

/-- The elements behind the removed one are in another order. -/
theorem removeAt_append_cons (front : List α) (x : α) (rest : List α) :
    ∃ rest', removeAt (front ++ x :: rest) front.length = front ++ rest' ∧ rest'.Perm rest := by
  rcases List.eq_nil_or_concat rest with rfl | ⟨init, z, rfl⟩
  · exact ⟨[], by rw [removeAt_concat_length, List.append_nil], List.Perm.refl []⟩
  · refine ⟨z :: init, ?_, ?_⟩
    · have hlt : front.length < (front ++ x :: init).length := by simp
      have hset : (front ++ x :: init).set front.length z = front ++ z :: init := by
        rw [List.set_append_right _ _ (Nat.le_refl _), Nat.sub_self]
        rfl
      rw [List.concat_eq_append, ← List.cons_append, ← List.append_assoc,
        removeAt_concat_of_lt z hlt, hset]
    · rw [List.concat_eq_append]
      exact (List.perm_append_comm : ([z] ++ init).Perm (init ++ [z]))

/-- Go over the vector from `pos` and remove what satisfies `p`; `todo` elements
are left. -/
def eraseScan (p : α → Bool) : Nat → Nat → List α → List α
  | 0, _, l => l
  | todo + 1, pos, l =>
    match l[pos]? with
    | some x =>
      if p x then eraseScan p todo pos (removeAt l pos) else eraseScan p todo (pos + 1) l
    | none => l

/-- The scan of a rest behind a part that is done. -/
theorem eraseScan_append (p : α → Bool) (todo : Nat) (front rest : List α)
    (h : rest.length = todo) :
    ∃ stay, eraseScan p todo front.length (front ++ rest) = front ++ stay ∧
      stay.Perm (rest.filter fun x => !p x) := by
  induction todo generalizing front rest with
  | zero =>
    obtain rfl := List.length_eq_zero_iff.mp h
    exact ⟨[], rfl, List.Perm.refl []⟩
  | succ todo ih =>
    cases rest with
    | nil => cases h
    | cons x rest =>
      have hlength : rest.length = todo := Nat.succ.inj h
      have hget : (front ++ x :: rest)[front.length]? = some x := by simp
      unfold eraseScan
      rw [hget]
      dsimp only
      by_cases hx : p x = true
      · obtain ⟨rest', hremove, hperm⟩ := removeAt_append_cons front x rest
        obtain ⟨stay, hscan, hstay⟩ := ih front rest' (hperm.length_eq.trans hlength)
        refine ⟨stay, by rw [if_pos hx, hremove, hscan], ?_⟩
        rw [List.filter_cons_of_neg (by simp [hx])]
        exact hstay.trans (hperm.filter _)
      · obtain ⟨stay, hscan, hstay⟩ := ih (front ++ [x]) rest hlength
        rw [List.length_append, List.length_singleton, List.append_assoc,
          List.singleton_append] at hscan
        refine ⟨x :: stay, by rw [if_neg hx, hscan, List.append_assoc]; rfl, ?_⟩
        rw [List.filter_cons_of_pos (by simpa using hx)]
        exact hstay.cons x

/-- The scan is a filter, up to the order. -/
theorem eraseScan_perm (p : α → Bool) (l : List α) :
    (eraseScan p l.length 0 l).Perm (l.filter fun x => !p x) := by
  obtain ⟨stay, hscan, hstay⟩ := eraseScan_append p l.length [] l rfl
  rw [List.nil_append, List.nil_append] at hscan
  exact hscan ▸ hstay

end SwapRemove
