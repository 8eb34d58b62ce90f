import ViEqui.Adjustment
import ViEqui.Lib.PairSearch

/-!
# The buffered search for conflicts

`EventSequence::conflicts_with` looks the events of the one sequence up in the
other by a parallel loop first, into a buffer of iterators, and searches the
buffer afterwards.

* `conflictsWith_eq_firstPair`: `Sequence::conflicts_with` as a search for a
  pair.
* `consumerLoop_map`: the search of the buffer is the same search.
* `conflictsWithBuffered_eq`: in every order of the iterations it answers what
  `Sequence::conflicts_with` answers.
-/

namespace ViEqui

open PairSearch

namespace Sequence

/-- `a` and `b` are in `t`, and `b` comes first there. -/
def reversedIn (t : Sequence) (a b : IID) : Bool :=
  a ∈ t && b ∈ t && t.idxOf b < t.idxOf a

/-- The first pair, in lexicographic order of the positions `i < j` in `s`, that
stands in `t` the other way round. -/
abbrev FirstConflict (s t : Sequence) (i j : Nat) : Prop := First (reversedIn t) s i j

theorem conflictsWith_eq_firstPair (s t : Sequence) :
    conflictsWith s t = firstPair (reversedIn t) s := by
  induction s with
  | nil => rfl
  | cons a s ih =>
    rw [conflictsWith, firstPair]
    unfold reversedIn at ih ⊢
    cases s.find? fun b => decide (a ∈ t) && decide (b ∈ t) && decide (t.idxOf b < t.idxOf a) with
    | none => exact ih
    | some b => rfl

end Sequence

namespace EventSequence

/-- The producer loop, with its iterations in the order `order`.  An iterator
into `other` is the position, and `end()` the length. -/
def producerLoop (s other : EventSequence) (buffer order : List Nat) : List Nat :=
  order.foldl (fun buffer i => buffer.set i (other.indexOf (s.getD i default).iid)) buffer

/-- The consumer loop. -/
def consumerLoop (other : EventSequence) : List Nat → Option (Event × Event)
  | [] => none
  | it1 :: buffer =>
    if it1 ≠ other.length then
      match buffer.find? (fun it2 => it2 ≠ other.length && it2 < it1) with
      | some it2 => some (other.getD it1 default, other.getD it2 default)
      | none => consumerLoop other buffer
    else consumerLoop other buffer

/-- `conflicts_with`, with the events of `other` that it answers.  `singular`
fills the buffer before the producer loop. -/
def conflictsWithBuffered (order : List Nat) (singular : Nat) (s other : EventSequence) :
    Option (Event × Event) :=
  consumerLoop other (producerLoop s other (List.replicate s.length singular) order)

/-- The buffer does not depend on the order of the iterations. -/
theorem producerLoop_eq {s : EventSequence} {order : List Nat}
    (horder : order.Perm (List.range s.length)) (singular : Nat) (other : EventSequence) :
    producerLoop s other (List.replicate s.length singular) order =
      s.map fun e => other.indexOf e.iid := by
  have hrange : order.Perm (List.range (List.replicate s.length singular).length) := by
    simpa using horder
  refine (fill_eq_map (fun i => other.indexOf (s.getD i default).iid) hrange).trans
    (List.ext_getElem? fun k => ?_)
  by_cases hk : k < s.length
  · simp [hk]
  · rw [List.getElem?_eq_none (by simpa using hk), List.getElem?_eq_none (by simpa using hk)]

theorem indexOf_ne_length_iff {t : EventSequence} {e : IID} :
    t.indexOf e ≠ t.length ↔ e ∈ t.toIidSequence := by
  have hlength : t.length = t.toIidSequence.length := (List.length_map _).symm
  rw [indexOf_eq, hlength, ← List.idxOf_lt_length_iff]
  have := List.idxOf_le_length (a := e) (l := t.toIidSequence)
  omega

/-- The iterator of an event of `t` points to what `find_iid` finds. -/
theorem findIid_eq_getD {t : EventSequence} {e : IID} (he : e ∈ t.toIidSequence) :
    t.findIid e = some (t.getD (t.indexOf e) default) := by
  induction t with
  | nil => cases he
  | cons ev t ih =>
    by_cases hev : ev.iid = e
    · simp [findIid, indexOf, List.findIdx_cons, hev]
    · have ht : e ∈ toIidSequence t := by
        rcases List.mem_cons.mp he with h | h
        · exact absurd h.symm hev
        · exact h
      simpa [findIid, indexOf, List.findIdx_cons, hev] using ih ht

/-- The test of the consumer loop for two iterators. -/
def isReversed (other : EventSequence) (it1 it2 : Nat) : Bool :=
  it1 ≠ other.length && (it2 ≠ other.length && it2 < it1)

theorem consumerLoop_eq (other : EventSequence) (buffer : List Nat) :
    consumerLoop other buffer =
      (firstPair (isReversed other) buffer).map fun its =>
        (other.getD its.1 default, other.getD its.2 default) := by
  induction buffer with
  | nil => rfl
  | cons it1 buffer ih =>
    rw [consumerLoop, firstPair]
    by_cases hend : it1 ≠ other.length
    · have htest : isReversed other it1 = fun it2 => it2 ≠ other.length && it2 < it1 := by
        funext it2
        simp [isReversed, hend]
      rw [if_pos hend, htest]
      cases buffer.find? fun it2 => it2 ≠ other.length && it2 < it1 with
      | none => exact ih
      | some it2 => rfl
    · have hnone : buffer.find? (isReversed other it1) = none :=
        List.find?_eq_none.mpr fun it2 _ => by simp [isReversed, hend]
      rw [if_neg hend, hnone]
      exact ih

/-- The search of the buffer for the events of `s` is the search for a conflict
of the identifiers. -/
theorem consumerLoop_map (s other : EventSequence) :
    consumerLoop other (s.map fun e => other.indexOf e.iid) =
      (Sequence.conflictsWith s.toIidSequence other.toIidSequence).map fun ab =>
        (other.getD (other.indexOf ab.1) default, other.getD (other.indexOf ab.2) default) := by
  have hmap : s.map (fun e => other.indexOf e.iid) = s.toIidSequence.map other.indexOf := by
    simp [toIidSequence]
  have htest : (fun a b => isReversed other (other.indexOf a) (other.indexOf b)) =
      Sequence.reversedIn other.toIidSequence := by
    funext a b
    rw [Bool.eq_iff_iff]
    simp only [isReversed, Sequence.reversedIn, Bool.and_eq_true, decide_eq_true_eq,
      indexOf_ne_length_iff]
    rw [indexOf_eq, indexOf_eq, and_assoc]
  rw [consumerLoop_eq, hmap, firstPair_map, htest, Sequence.conflictsWith_eq_firstPair,
    Option.map_map]
  rfl

theorem iid_getD_indexOf {t : EventSequence} {e : IID} (he : e ∈ t.toIidSequence) :
    (t.getD (t.indexOf e) default).iid = e := by
  have hfind := List.find?_some (findIid_eq_getD he)
  exact of_decide_eq_true hfind

/-- The identifiers that it answers are those that `conflicts_with` is modelled
by in the equality of views. -/
theorem map_iid_conflictsWithBuffered {s : EventSequence} {order : List Nat}
    (horder : order.Perm (List.range s.length)) (singular : Nat) (t : EventSequence) :
    (conflictsWithBuffered order singular s t).map (fun xy => (xy.1.iid, xy.2.iid)) =
      conflictsWith s t := by
  rw [conflictsWithBuffered, producerLoop_eq horder, consumerLoop_map, conflictsWith_eq,
    Option.map_map]
  cases hconf : Sequence.conflictsWith s.toIidSequence t.toIidSequence with
  | none => rfl
  | some ab =>
    obtain ⟨a, b⟩ := ab
    obtain ⟨_, ha, hb, _⟩ := Sequence.conflictsWith_some hconf
    show some ((t.getD (t.indexOf a) default).iid, (t.getD (t.indexOf b) default).iid) = _
    rw [iid_getD_indexOf ha, iid_getD_indexOf hb]

/-- The buffered search answers what the sequential one answers, for every order
of the iterations of its producer loop: the pair at the lexicographically first
positions, as events of the other sequence. -/
theorem conflictsWithBuffered_eq (s t : EventSequence) (order : List Nat) (singular : Nat)
    (horder : order.Perm (List.range s.length)) :
    (conflictsWithBuffered order singular s t = none ↔
      Sequence.conflictsWith s.toIidSequence t.toIidSequence = none) ∧
    ∀ a b, Sequence.conflictsWith s.toIidSequence t.toIidSequence = some (a, b) →
      (∃ x y, conflictsWithBuffered order singular s t = some (x, y) ∧
        t.findIid a = some x ∧ t.findIid b = some y) ∧
      ∃ i j, Sequence.FirstConflict s.toIidSequence t.toIidSequence i j ∧
        s.toIidSequence[i]? = some a ∧ s.toIidSequence[j]? = some b := by
  rw [conflictsWithBuffered, producerLoop_eq horder, consumerLoop_map]
  refine ⟨Option.map_eq_none_iff, fun a b hconf => ⟨?_, ?_⟩⟩
  · obtain ⟨_, ha, hb, _⟩ := Sequence.conflictsWith_some hconf
    refine ⟨t.getD (t.indexOf a) default, t.getD (t.indexOf b) default, ?_, findIid_eq_getD ha,
      findIid_eq_getD hb⟩
    rw [hconf]
    rfl
  · rw [Sequence.conflictsWith_eq_firstPair] at hconf
    exact firstPair_some hconf

/-- Two events that are swapped, looked up from the last to the first. -/
theorem conflictsWithBuffered_eq_swapped :
    (conflictsWithBuffered [1, 0] 7 [{ iid := ⟨0, 0⟩ }, { iid := ⟨1, 0⟩ }]
        [{ iid := ⟨1, 0⟩ }, { iid := ⟨0, 0⟩ }] = none ↔
      Sequence.conflictsWith [⟨0, 0⟩, ⟨1, 0⟩] [⟨1, 0⟩, ⟨0, 0⟩] = none) ∧
    ∀ a b, Sequence.conflictsWith [⟨0, 0⟩, ⟨1, 0⟩] [⟨1, 0⟩, ⟨0, 0⟩] = some (a, b) →
      (∃ x y, conflictsWithBuffered [1, 0] 7 [{ iid := ⟨0, 0⟩ }, { iid := ⟨1, 0⟩ }]
          [{ iid := ⟨1, 0⟩ }, { iid := ⟨0, 0⟩ }] = some (x, y) ∧
        findIid [{ iid := ⟨1, 0⟩ }, { iid := ⟨0, 0⟩ }] a = some x ∧
        findIid [{ iid := ⟨1, 0⟩ }, { iid := ⟨0, 0⟩ }] b = some y) ∧
      ∃ i j, Sequence.FirstConflict [⟨0, 0⟩, ⟨1, 0⟩] [⟨1, 0⟩, ⟨0, 0⟩] i j ∧
        ([⟨0, 0⟩, ⟨1, 0⟩] : Sequence)[i]? = some a ∧
        ([⟨0, 0⟩, ⟨1, 0⟩] : Sequence)[j]? = some b :=
  conflictsWithBuffered_eq _ _ [1, 0] 7 (by decide)

end EventSequence

end ViEqui
