import Mathlib.Data.List.GetD
import Mathlib.Order.Basic

/-!
# Reading a list behind a write

A list is read with a default behind its end.  These lemmas say what is read after one
entry is set or changed, and after an entry is appended.
-/

namespace ViEqui.GetD

variable {α : Type} {l : List α} {i j : Nat}

theorem getD_set (x d : α) (h : i < l.length) :
    (l.set i x).getD j d = if j = i then x else l.getD j d := by
  by_cases hj : j = i
  · subst hj
    rw [if_pos rfl, List.getD_eq_getElem _ _ (by rwa [List.length_set]), List.getElem_set_self]
  · rw [if_neg hj, List.getD_eq_getElem?_getD, List.getElem?_set_ne (Ne.symm hj),
      ← List.getD_eq_getElem?_getD]

theorem getD_modify (f : α → α) (d : α) :
    (l.modify i f).getD j d = if j = i ∧ i < l.length then f (l.getD i d) else l.getD j d := by
  rw [List.getD_eq_getElem?_getD, List.getElem?_modify]
  by_cases hj : j = i
  · subst hj
    by_cases hlt : j < l.length
    · rw [if_pos ⟨rfl, hlt⟩, List.getElem?_eq_getElem hlt, List.getD_eq_getElem _ _ hlt,
        Option.map_eq_map, Option.map_some, if_pos rfl]
      rfl
    · rw [if_neg fun h => hlt h.2, List.getElem?_eq_none (by omega),
        List.getD_eq_default _ _ (by omega)]
      rfl
  · rw [if_neg fun h => hj h.1, List.getD_eq_getElem?_getD]
    cases l[j]? with
    | none => rfl
    | some x => rw [Option.map_eq_map, Option.map_some, if_neg (Ne.symm hj)]

theorem getD_modify_of_lt (f : α → α) (d : α) (h : i < l.length) :
    (l.modify i f).getD j d = if j = i then f (l.getD i d) else l.getD j d := by
  rw [getD_modify]
  simp only [h, and_true]

theorem getD_concat (x d : α) :
    (l ++ [x]).getD i d = if i = l.length then x else l.getD i d := by
  rcases Nat.lt_trichotomy i l.length with hlt | heq | hgt
  · rw [List.getD_append _ _ _ _ hlt, if_neg (by omega)]
  · rw [List.getD_append_right _ _ _ _ (by omega), if_pos heq, heq, Nat.sub_self]
    rfl
  · rw [List.getD_eq_default _ _ (by rw [List.length_append, List.length_singleton]; omega),
      if_neg (by omega), List.getD_eq_default _ _ (by omega)]

theorem getD_replicate_self (n i : Nat) (d : α) : (List.replicate n d).getD i d = d := by
  by_cases h : i < n
  · exact List.getD_replicate _ h
  · exact List.getD_eq_default _ _ (by rw [List.length_replicate]; omega)

/-- A change that `g` does not see. -/
theorem map_modify_of_eq {β : Type} {f : α → α} {g : α → β} (hf : ∀ x, g (f x) = g x)
    (l : List α) (i : Nat) : (l.modify i f).map g = l.map g := by
  apply List.ext_getElem?
  intro j
  rw [List.getElem?_map, List.getElem?_map, List.getElem?_modify]
  cases l[j]? with
  | none => rfl
  | some x =>
    show some (g (if i = j then f x else x)) = some (g x)
    split_ifs
    · rw [hf]
    · rfl

end ViEqui.GetD
