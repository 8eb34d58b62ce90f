import ViEqui.EventSequence

/-!
# Conflicts and view adjustment

What the search for conflicts finds and what `view_adjust` does to a
sequence, for the sequences of identifiers and for those of events.

* `conflictsWith_some`, `conflictsWith_none`: the pairs that stand the other
  way round in the other sequence.
* `exchange_of_viewAdjust`: a view adjustment is a series of exchanges of
  adjacent events that are no read-write pair.
-/

namespace ViEqui

open Shift Precedence

namespace Sequence

/-! ## Conflicts -/

/-- A conflict stands in both sequences, in opposite orders. -/
theorem conflictsWith_some {s other : Sequence} {e1 e2 : IID}
    (h : conflictsWith s other = some (e1, e2)) :
    Precedes s e1 e2 ∧ e1 ∈ other ∧ e2 ∈ other ∧
      other.idxOf e2 < other.idxOf e1 := by
  induction s with
  | nil => simp [conflictsWith] at h
  | cons a s ih =>
    rw [conflictsWith] at h
    split at h
    · next b hb =>
      obtain ⟨rfl, rfl⟩ : a = e1 ∧ b = e2 := by simpa using h
      have hmem : b ∈ s := List.mem_of_find?_eq_some hb
      have hrev := List.find?_some hb
      simp only [Bool.and_eq_true, decide_eq_true_eq] at hrev
      have hab : Precedes (a :: s) a b :=
        (List.singleton_sublist.mpr hmem).cons_cons a
      exact ⟨hab, hrev.1.1, hrev.1.2, hrev.2⟩
    · obtain ⟨hprec, hrest⟩ := ih h
      exact ⟨hprec.cons a, hrest⟩

/-- Without a conflict, common events stand in one order. -/
theorem conflictsWith_none {s other : Sequence}
    (h : conflictsWith s other = none) {a b : IID} (hab : Precedes s a b)
    (ha : a ∈ other) (hb : b ∈ other) : other.idxOf a ≤ other.idxOf b := by
  induction s with
  | nil => exact absurd hab.mem_left (by simp)
  | cons e s ih =>
    rw [conflictsWith] at h
    split at h
    · cases h
    · next hnone =>
      rcases List.cons_sublist_cons'.mp hab with hrest | ⟨rfl, hrest⟩
      · exact ih h hrest
      · have hb' : b ∈ s := List.singleton_sublist.mp hrest
        have := List.find?_eq_none.mp hnone b hb'
        simp only [Bool.and_eq_true, decide_eq_true_eq, not_and] at this
        have hlt := this ⟨ha, hb⟩
        omega

/-! ## View adjustment -/

/-- `view_adjust(e1, e2)`, for `e1` before `e2`. -/
theorem viewAdjust_append {c : Container} {P M Q : Sequence} {e1 e2 : IID}
    (he1 : e1 ∉ P) (he2 : e2 ∉ P ++ e1 :: M) :
    viewAdjust c (P ++ (e1 :: M ++ e2 :: Q)) e1 e2 =
      if c.ordered e1 e2 then none
      else if Clear c.rwPair (fun e => e.pid = e1.pid) e2 (e1 :: M) then
        some (P ++ (behind (fun e => e.pid = e1.pid) e2 (e1 :: M) ++ Q))
      else none := by
  have hn1 : (P ++ (e1 :: M ++ e2 :: Q)).idxOf e1 = P.length :=
    idxOf_append_cons he1
  have hn2 : (P ++ (e1 :: M ++ e2 :: Q)).idxOf e2 = (P ++ e1 :: M).length := by
    rw [← List.append_assoc]
    exact idxOf_append_cons he2
  rw [viewAdjust, hn1, hn2, shiftBehind_append _ _ _ _ _ List.length_append]

/-- A view adjustment keeps the events. -/
theorem viewAdjust_perm {c : Container} {s t : Sequence} {e1 e2 : IID}
    (he2 : e2 ∈ s) (h : viewAdjust c s e1 e2 = some t) : s.Perm t := by
  rw [viewAdjust] at h
  split at h
  · cases h
  · exact (exchange_of_shiftBehind (List.idxOf_lt_length_of_mem he2) h).perm

/-- A view adjustment keeps the order of read-write pairs and of the events of
one thread. -/
theorem exchange_of_viewAdjust {c : Container} {s t : Sequence} {e1 e2 : IID}
    (hpid : e1.pid ≠ e2.pid) (he2 : e2 ∈ s) (hlt : s.idxOf e1 < s.idxOf e2)
    (h : viewAdjust c s e1 e2 = some t) : Exchange c.dependent s t := by
  obtain ⟨P, M, Q, rfl, he1P, he2M⟩ := exists_between he2 hlt
  rw [viewAdjust_append he1P he2M] at h
  split at h
  · cases h
  · split at h
    · next hclear =>
      cases h
      refine (exchange_behind (hclear.mono (by simpa using Ne.symm hpid) ?_) Q).append_left P
      intro a b ha hb hdep
      simp only [decide_eq_true_eq, decide_eq_false_iff_not] at ha hb
      simp only [Container.dependent, hdep, Bool.false_or, decide_eq_false_iff_not]
      exact fun h => hb (h ▸ ha)
    · cases h

end Sequence

namespace EventSequence

/-! ## Events and their identifiers -/

theorem has_iff {s : EventSequence} {e : IID} :
    s.has e ↔ e ∈ s.toIidSequence := by
  rw [has, findIid, List.find?_isSome, toIidSequence, List.mem_map]
  simp

theorem indexOf_eq (s : EventSequence) (e : IID) :
    s.indexOf e = s.toIidSequence.idxOf e := by
  rw [indexOf, toIidSequence, List.idxOf, List.findIdx_map]
  rfl

/-- The search for conflicts looks at the identifiers only. -/
theorem conflictsWith_eq (s other : EventSequence) :
    conflictsWith s other =
      Sequence.conflictsWith s.toIidSequence other.toIidSequence := by
  induction s with
  | nil => rfl
  | cons a s ih =>
    have hfind : (toIidSequence s).find? (fun b =>
          decide (a.iid ∈ other.toIidSequence) &&
            decide (b ∈ other.toIidSequence) &&
            decide (other.toIidSequence.idxOf b < other.toIidSequence.idxOf a.iid)) =
        (s.find? (fun b => other.has a.iid && other.has b.iid &&
          decide (other.indexOf b.iid < other.indexOf a.iid))).map (·.iid) := by
      rw [show toIidSequence s = s.map (·.iid) from rfl, List.find?_map]
      congr 2
      funext b
      rw [Bool.eq_iff_iff]
      simp only [Function.comp, indexOf_eq, Bool.and_eq_true, decide_eq_true_eq,
        has_iff]
    show _ = Sequence.conflictsWith (a.iid :: toIidSequence s) _
    rw [conflictsWith, Sequence.conflictsWith, hfind]
    cases s.find? _ with
    | none => exact ih
    | some b => rfl

end EventSequence

/-! ## View adjustment -/

namespace EventSequence

theorem exchange_of_viewAdjust {s t : EventSequence} {e1 e2 : IID}
    (he2 : e2 ∈ s.toIidSequence) (h : s.viewAdjust e1 e2 = some t) :
    Exchange Event.rwPair s t := by
  have hlt : s.indexOf e2 < s.length := by
    have := List.idxOf_lt_length_of_mem he2
    rw [indexOf_eq]
    rwa [toIidSequence, List.length_map] at this
  exact exchange_of_shiftBehind hlt h

/-- The adjustments of `VA_equal`, up to the last one. -/
theorem exchange_of_resolveConflicts {s t t' : EventSequence} {fuel : Nat}
    (h : resolveConflicts s fuel t = some (some t')) :
    Exchange Event.rwPair t t' ∧ conflictsWith s t' = none := by
  induction fuel generalizing t with
  | zero => cases h
  | succ fuel ih =>
    rw [resolveConflicts] at h
    split at h
    · next hnone =>
      cases h
      exact ⟨.refl _, hnone⟩
    · next e1 e2 hconf =>
      rw [conflictsWith_eq] at hconf
      obtain ⟨_, he1, he2, hlt⟩ := Sequence.conflictsWith_some hconf
      split at h
      · next t'' hadj =>
        obtain ⟨hexch, hnone⟩ := ih h
        exact ⟨(exchange_of_viewAdjust he1 hadj).trans hexch, hnone⟩
      · cases h

end EventSequence

end ViEqui
