import ViEqui.EventSequence
import ViEqui.Lib.Precedence

/-!
# Sequentially consistent replay

What a sequence of events means, apart from the code: its events happen one
after another on one memory.  A read returns the value of its object, and the
write of an rmw computes its value from what its own read returned.

* `replay`: the events with the values they have when they happen in this
  order.
* `Replays c m s`: `s` carries the values of the replay of its identifiers.
* `SameReads s t`: the contract by which two sequences count as one view, the
  same reads with the same values.
-/

namespace ViEqui

open Precedence

namespace Event

/-- `e` with the value `v`. -/
def withValue (e : Event) (v : Value) : Event := { e with value := v }

@[simp] theorem withValue_iid (e : Event) (v : Value) :
    (e.withValue v).iid = e.iid := rfl

@[simp] theorem withValue_object (e : Event) (v : Value) :
    (e.withValue v).object = e.object := rfl

@[simp] theorem withValue_value (e : Event) (v : Value) :
    (e.withValue v).value = v := rfl

@[simp] theorem withValue_isRead (e : Event) (v : Value) :
    (e.withValue v).isRead = e.isRead := rfl

@[simp] theorem withValue_isWrite (e : Event) (v : Value) :
    (e.withValue v).isWrite = e.isWrite := rfl

/-- `w` writes the object of `e`. -/
def writesTo (w e : Event) : Bool := w.isWrite && w.sameObject e

theorem writesTo_iff {w e : Event} :
    w.writesTo e ↔ w.isWrite ∧ w.object = e.object := by
  simp [writesTo, sameObject]

/-- A write and a read of its object depend on each other. -/
theorem rwPair_of_writesTo {w e : Event} (hw : w.writesTo e) (he : e.isRead) :
    w.rwPair e := by
  have h := writesTo_iff.mp hw
  simp [rwPair, sameObject, h.1, h.2, he]

end Event

/-! ## The replay -/

/-- The events of `evs`, happening in this order from the memory `m`.  `seen`
are the values that the reads so far have returned.  An rmw write whose read
has not happened finds its operand in the memory. -/
def replay : (Object → Value) → (IID → Option Value) → List Event → EventSequence
  | _, _, [] => []
  | m, seen, e :: evs =>
    if e.isWrite then
      let operand := (seen ⟨e.iid.pid, e.iid.idx - 1⟩).getD (m e.object)
      let v := if e.isRmw then
          computeModifiedValue e.rmwOperation operand e.rmwValue e.expectedValue
        else e.value
      e.withValue v :: replay (Function.update m e.object v) seen evs
    else if e.isRead then
      e.withValue (m e.object) ::
        replay m (Function.update seen e.iid (some (m e.object))) evs
    else e :: replay m seen evs

/-- One step of the replay changes the value of the event, and the memory only
for a write. -/
theorem replay_cons (m : Object → Value) (seen : IID → Option Value) (e : Event)
    (evs : List Event) :
    ∃ v m' seen', replay m seen (e :: evs) = e.withValue v :: replay m' seen' evs ∧
      (e.isRead → v = m e.object) ∧
      ∀ o, m' o = if e.isWrite ∧ e.object = o then v else m o := by
  rw [replay]
  by_cases hw : e.isWrite
  · have hr : ¬e.isRead := by simp [Event.isRead_eq_false_of_isWrite hw]
    rw [if_pos hw]
    refine ⟨_, _, _, rfl, fun h => absurd h hr, fun o => ?_⟩
    by_cases ho : e.object = o
    · simp [hw, ho]
    · simp [ho, Function.update_of_ne (Ne.symm ho)]
  · rw [if_neg hw]
    by_cases hr : e.isRead
    · rw [if_pos hr]
      exact ⟨_, _, _, rfl, fun _ => rfl, fun o => by rw [if_neg (fun h => hw h.1)]⟩
    · rw [if_neg hr]
      exact ⟨e.value, m, seen, rfl, fun h => absurd h hr,
        fun o => by rw [if_neg (fun h => hw h.1)]⟩

/-- The replay changes nothing but values. -/
theorem mem_replay {m : Object → Value} {seen : IID → Option Value}
    {evs : List Event} {e : Event} (h : e ∈ replay m seen evs) :
    ∃ e₀ ∈ evs, e = e₀.withValue e.value := by
  induction evs generalizing m seen with
  | nil => simp [replay] at h
  | cons e₀ evs ih =>
    obtain ⟨v, m', seen', heq, _, _⟩ := replay_cons m seen e₀ evs
    rw [heq, List.mem_cons] at h
    rcases h with rfl | h
    · exact ⟨e₀, by simp, rfl⟩
    · obtain ⟨e₁, hmem, he⟩ := ih h
      exact ⟨e₁, List.mem_cons_of_mem _ hmem, he⟩

@[simp] theorem map_iid_replay (m : Object → Value) (seen : IID → Option Value)
    (evs : List Event) :
    (replay m seen evs).map (·.iid) = evs.map (·.iid) := by
  induction evs generalizing m seen with
  | nil => rfl
  | cons e evs ih =>
    obtain ⟨v, m', seen', heq, _, _⟩ := replay_cons m seen e evs
    rw [heq, List.map_cons, List.map_cons, ih, Event.withValue_iid]

/-- The value that a read returns: that of the latest write of its object, or
the initial one. -/
theorem replay_read_value {m : Object → Value} {seen : IID → Option Value}
    {evs : List Event} {P Q : EventSequence} {e : Event}
    (h : replay m seen evs = P ++ e :: Q) (hread : e.isRead) :
    e.value = ((latest (·.writesTo e) P).map (·.value)).getD (m e.object) := by
  induction evs generalizing m seen P with
  | nil => simp [replay] at h
  | cons e₀ evs ih =>
    obtain ⟨v, m', seen', heq, hv, hm'⟩ := replay_cons m seen e₀ evs
    rw [heq] at h
    cases P with
    | nil =>
      rw [List.nil_append] at h
      injection h with he _
      subst he
      simpa [latest] using hv hread
    | cons p P =>
      rw [List.cons_append] at h
      injection h with hp htail
      subst hp
      rw [ih htail, latest_cons]
      cases hlast : latest (·.writesTo e) P with
      | some w => rfl
      | none =>
        -- nothing behind the first event writes the object
        rw [Option.none_or, Option.map_none, Option.getD_none, hm']
        by_cases hw : e₀.isWrite ∧ e₀.object = e.object
        · have hw' : (e₀.withValue v).writesTo e := Event.writesTo_iff.mpr hw
          rw [if_pos hw, if_pos hw']
          rfl
        · have hw' : ¬(e₀.withValue v).writesTo e :=
            fun h => hw (Event.writesTo_iff.mp h)
          rw [if_neg hw, if_neg hw']
          rfl

/-! ## Sequences that carry the values of a replay -/

/-- `s` is an execution of its identifiers from the memory `m`: no event
happens twice, and the values are those of the replay. -/
structure Replays (c : Container) (m : Object → Value) (s : EventSequence) :
    Prop where
  nodup : s.toIidSequence.Nodup
  values : s = replay m (fun _ => none) (s.toIidSequence.map c.getEvent)

instance (c : Container) (m : Object → Value) (s : EventSequence) :
    Decidable (Replays c m s) :=
  decidable_of_iff
    (s.toIidSequence.Nodup ∧
      s = replay m (fun _ => none) (s.toIidSequence.map c.getEvent))
    ⟨fun h => ⟨h.1, h.2⟩, fun h => ⟨h.1, h.2⟩⟩

namespace EventSequence

/-- The latest earlier write of the object of `e`. -/
def source (s : EventSequence) (e : Event) : Option Event :=
  latestBefore (fun ev => ev.iid = e.iid) (·.writesTo e) s

/-- `s` and `t` contain the same reads, with the same values. -/
def SameReads (s t : EventSequence) : Prop :=
  ∀ r v, (∃ e ∈ s, e.isRead ∧ e.iid = r ∧ e.value = v) ↔
    ∃ e ∈ t, e.isRead ∧ e.iid = r ∧ e.value = v

theorem SameReads.refl (s : EventSequence) : SameReads s s := fun _ _ => Iff.rfl

theorem SameReads.trans {s t u : EventSequence} (h : SameReads s t)
    (h' : SameReads t u) : SameReads s u := fun r v => (h r v).trans (h' r v)

end EventSequence

namespace Replays

open EventSequence

variable {c : Container} {m : Object → Value} {s t : EventSequence}

/-- An event of a replay is the event of the thread table up to its value. -/
theorem eq_withValue (hs : Replays c m s) {e : Event} (he : e ∈ s) :
    e = (c.getEvent e.iid).withValue e.value := by
  have hiids : s.toIidSequence.map (fun i => (c.getEvent i).iid) =
      s.toIidSequence.map id := by
    have := congrArg toIidSequence hs.values
    rw [toIidSequence, toIidSequence, map_iid_replay, List.map_map] at this
    rw [List.map_id]
    exact this.symm
  have hmem : e ∈ replay m (fun _ => none) (s.toIidSequence.map c.getEvent) :=
    hs.values ▸ he
  obtain ⟨e₀, he₀, heq⟩ := mem_replay hmem
  obtain ⟨i, hi, rfl⟩ := List.mem_map.mp he₀
  have hiid : (c.getEvent i).iid = i := List.map_inj_left.mp hiids i hi
  have : e.iid = i := by rw [heq, Event.withValue_iid, hiid]
  rw [this]
  exact heq

/-- The value of a read: that of its source, or the initial one. -/
theorem read_value (hs : Replays c m s) {e : Event} (he : e ∈ s)
    (hread : e.isRead) :
    e.value = ((s.source e).map (·.value)).getD (m e.object) := by
  obtain ⟨P, Q, rfl⟩ := List.append_of_mem he
  have hP : ∀ y ∈ P, (fun ev : Event => decide (ev.iid = e.iid)) y = false := by
    have hnodup := hs.nodup
    rw [toIidSequence, List.map_append, List.map_cons] at hnodup
    intro y hy
    have := (List.nodup_append.mp hnodup).2.2 y.iid (List.mem_map_of_mem hy)
      e.iid (by simp)
    simpa using this
  rw [source, latestBefore_append hP (by simp)]
  exact replay_read_value hs.values.symm hread

end Replays

/-! Two threads store to one object, a third one loads it. -/

/-- The events of the three threads. -/
def racingStores : Container :=
  let x : SymAddrSize := ⟨.global 1, 0, 1⟩
  { threads :=
      [{ events := [{ Event.makeWrite x [1] with iid := ⟨0, 0⟩ }] },
       { events := [{ Event.makeWrite x [2] with iid := ⟨1, 0⟩ }] },
       { events := [{ Event.makeRead x with iid := ⟨2, 0⟩ }] }] }

end ViEqui
