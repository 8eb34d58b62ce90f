import Mathlib.Data.List.Basic
import Mathlib.Data.List.Induction
import Mathlib.Data.Set.Basic

/-!
# Orders of items with requirements

Items are to be put in one order, and `before j i` says that `j` must come
before `i`.

* `Attempt`: a list of items in which each one stands behind all that it
  requires.  The list may end before all items are in it.
* `Order`: an attempt with all items.
* `Attempt.subset_of_stuck`: an attempt does not leave a set when each item
  outside requires another one outside.
-/

namespace Attempts

variable {ι : Type*} (item : ι → Prop) (before : ι → ι → Prop)

/-- Items in an order, each behind all that it requires. -/
structure Attempt (l : List ι) : Prop where
  items : ∀ i ∈ l, item i
  nodup : l.Nodup
  behind : ∀ front i back, l = front ++ i :: back → ∀ j, before j i → j ∈ front

/-- An order of all items. -/
structure Order (l : List ι) : Prop extends Attempt item before l where
  all : ∀ i, item i → i ∈ l

variable {item before}

theorem attempt_nil : Attempt item before [] where
  items _ h := nomatch h
  nodup := List.nodup_nil
  behind _ _ _ h := by simp at h

/-- One item more. -/
theorem Attempt.concat {l : List ι} (h : Attempt item before l) {i : ι} (hi : item i)
    (hnew : i ∉ l) (hbefore : ∀ j, before j i → j ∈ l) : Attempt item before (l ++ [i]) where
  items j hj := by
    rcases List.mem_append.mp hj with hj | hj
    · exact h.items j hj
    · rw [List.mem_singleton.mp hj]
      exact hi
  nodup := List.nodup_append.mpr ⟨h.nodup, List.pairwise_singleton _ i, by
    intro a ha b hb heq
    rw [List.mem_singleton.mp hb] at heq
    exact hnew (heq ▸ ha)⟩
  behind front k back hl j hj := by
    rcases List.eq_nil_or_concat back with rfl | ⟨back, b, rfl⟩
    · obtain ⟨hfront, hk⟩ := List.append_inj' hl rfl
      obtain rfl := List.head_eq_of_cons_eq hk
      exact hfront ▸ hbefore j hj
    · rw [List.concat_eq_append, ← List.cons_append, ← List.append_assoc] at hl
      exact h.behind front k back (List.append_inj' hl rfl).1 j hj

theorem Attempt.front {l l' : List ι} (h : Attempt item before (l ++ l')) :
    Attempt item before l where
  items i hi := h.items i (List.mem_append_left l' hi)
  nodup := (List.nodup_append.mp h.nodup).1
  behind front i back hl := h.behind front i (back ++ l') (by rw [hl]; simp)

/-- With fewer requirements there are more attempts. -/
theorem Attempt.mono {before' : ι → ι → Prop} {l : List ι} (h : Attempt item before l)
    (hle : ∀ i ∈ l, ∀ j, before' j i → before j i) : Attempt item before' l where
  items := h.items
  nodup := h.nodup
  behind front i back hl j hj :=
    h.behind front i back hl j (hle i (by rw [hl]; simp) j hj)

/-- An item stands behind what it requires. -/
theorem Attempt.idxOf_lt [DecidableEq ι] {l : List ι} (h : Attempt item before l) {i j : ι}
    (hi : i ∈ l) (hj : before j i) : l.idxOf j < l.idxOf i := by
  obtain ⟨front, back, rfl⟩ := List.append_of_mem hi
  have hfront := h.behind front i back rfl j hj
  have hnot : i ∉ front := fun hmem =>
    (List.nodup_append.mp h.nodup).2.2 i hmem i List.mem_cons_self rfl
  rw [List.idxOf_append_of_mem hfront, List.idxOf_append_of_notMem hnot, List.idxOf_cons_self]
  exact List.idxOf_lt_length_of_mem hfront

theorem Attempt.subset_of_stuck {s : Set ι}
    (hstuck : ∀ i, item i → i ∉ s → ∃ j, before j i ∧ j ∉ s) {l : List ι}
    (h : Attempt item before l) : ∀ i ∈ l, i ∈ s := by
  induction l using List.reverseRecOn with
  | nil => exact fun _ hi => nomatch hi
  | append_singleton l i ih =>
    have hl := ih h.front
    intro k hk
    rcases List.mem_append.mp hk with hk | hk
    · exact hl k hk
    · obtain rfl := List.mem_singleton.mp hk
      by_contra hout
      obtain ⟨j, hj, hjout⟩ := hstuck k (h.items k (by simp)) hout
      exact hjout (hl j (h.behind l k [] rfl j hj))

end Attempts
