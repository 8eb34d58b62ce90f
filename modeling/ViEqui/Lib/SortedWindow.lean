import Mathlib.Data.List.Basic
import Mathlib.Order.Lattice

/-!
# Windows of a sorted list

A window of a sorted list is cut by two searches.  A predicate that holds of an
entry when it holds of a later one holds of a prefix of the list, and the
search gives the length of this prefix.

* `lt_length_takeWhile_iff`: the search compares a position with its entry.
* `pred_length_takeWhile_le_iff`: the position in front of the result of a
  search is that of the last entry with the predicate, or the first one.
* `mem_drop_take_iff`: the entries between two positions.
-/

namespace SortedWindow

variable {α : Type*}

/-- A position is in front of the result of a search if and only if its entry
has the predicate. -/
theorem lt_length_takeWhile_iff {P : α → Bool} {l : List α}
    (h : l.Pairwise fun a b => P b → P a) {k : Nat} {a : α} (hk : l[k]? = some a) :
    k < (l.takeWhile P).length ↔ P a := by
  induction l generalizing k with
  | nil => cases hk
  | cons b l ih =>
    obtain ⟨hhead, htail⟩ := List.pairwise_cons.mp h
    rw [List.takeWhile_cons]
    cases k with
    | zero =>
      obtain rfl := Option.some.inj hk
      split
      · next hb => exact iff_of_true (Nat.zero_lt_succ _) hb
      · next hb => exact iff_of_false (Nat.not_lt_zero _) hb
    | succ k =>
      rw [List.getElem?_cons_succ] at hk
      split
      · rw [List.length_cons, Nat.succ_lt_succ_iff]
        exact ih htail hk
      · next hb =>
        refine iff_of_false (Nat.not_lt_zero _) fun ha => hb ?_
        exact hhead a (List.mem_of_getElem? hk) ha

theorem mem_drop_take_iff {l : List α} (h : l.Nodup) {start stop k : Nat} {a : α}
    (hk : l[k]? = some a) : a ∈ (l.take stop).drop start ↔ start ≤ k ∧ k < stop := by
  have hget : ∀ m, ((l.take stop).drop start)[m]? =
      if start + m < stop then l[start + m]? else none := by
    intro m
    rw [List.getElem?_drop, List.getElem?_take]
  obtain ⟨hlt, hka⟩ := List.getElem?_eq_some_iff.mp hk
  constructor
  · intro hmem
    obtain ⟨m, hm⟩ := List.getElem?_of_mem hmem
    rw [hget] at hm
    split at hm
    · next hstop =>
      obtain ⟨hlt', hma⟩ := List.getElem?_eq_some_iff.mp hm
      have heq : start + m = k := (List.getElem_inj h).mp (hma.trans hka.symm)
      omega
    · cases hm
  · intro ⟨hstart, hstop⟩
    have hm : ((l.take stop).drop start)[k - start]? = some a := by
      rw [hget, show start + (k - start) = k by omega, if_pos hstop]
      exact hk
    exact List.mem_of_getElem? hm

variable [LinearOrder α]

theorem getElem?_lt_iff {l : List α} (h : l.Pairwise (· < ·)) {k m : Nat} {a b : α}
    (hk : l[k]? = some a) (hm : l[m]? = some b) : a < b ↔ k < m := by
  obtain ⟨hlt, rfl⟩ := List.getElem?_eq_some_iff.mp hk
  obtain ⟨hltm, rfl⟩ := List.getElem?_eq_some_iff.mp hm
  have hpair := List.pairwise_iff_getElem.mp h
  constructor
  · intro hab
    by_contra hge
    rcases Nat.lt_or_eq_of_le (Nat.le_of_not_lt hge) with hmk | rfl
    · exact lt_asymm hab (hpair m k hltm hlt hmk)
    · exact lt_irrefl _ hab
  · exact hpair k m hlt hltm

/-- The position in front of the result of a search. -/
theorem pred_length_takeWhile_le_iff {P : α → Bool} {l : List α} (hsorted : l.Pairwise (· < ·))
    (h : l.Pairwise fun a b => P b → P a) {k : Nat} {a : α} (hk : l[k]? = some a) :
    (l.takeWhile P).length - 1 ≤ k ↔ ∀ b ∈ l, a < b → ¬ P b := by
  constructor
  · intro hle b hb hab hPb
    obtain ⟨m, hm⟩ := List.getElem?_of_mem hb
    have hkm := (getElem?_lt_iff hsorted hk hm).mp hab
    have hlt := (lt_length_takeWhile_iff h hm).mpr hPb
    omega
  · intro hlater
    by_contra hgt
    have hlen := (List.takeWhile_sublist P (l := l)).length_le
    have hnext : l[k + 1]? = some (l.get ⟨k + 1, by omega⟩) :=
      List.getElem?_eq_getElem (by omega)
    have hP := (lt_length_takeWhile_iff h hnext).mp (by omega)
    exact hlater _ (List.mem_of_getElem? hnext)
      ((getElem?_lt_iff hsorted hk hnext).mpr (Nat.lt_succ_self k)) hP

end SortedWindow
