import Mathlib.Data.List.GetD
import ViEqui.Replay

/-!
# The values of a sequence

What `to_event_sequence` and `add_rmw_write` put into the events of a
sequence.

* `HasValues`: what the values of the events are to be.
* `hasValues_toEventSequenceFrom_iff`: when `to_event_sequence(source, mem)`
  gives them.
* `addRmwWrite_toEventSequence`: to add the write of an rmw late is to have
  it in the sequence from the start.
-/

namespace ViEqui

open AssocMap Precedence

/-- The identifiers of `s` are those of their events in the thread table. -/
def Container.Stores (c : Container) (s : Sequence) : Prop :=
  ∀ e ∈ s, e.idx < c.threadSize e.pid ∧ (c.getEvent e).iid = e

instance (c : Container) (s : Sequence) : Decidable (c.Stores s) :=
  inferInstanceAs (Decidable (∀ e ∈ s, _))

namespace Sequence

/-! ## The loop of `to_event_sequence` -/

/-- The value that the loop gives to the next event. -/
def nextValue (mem : Memory) (last : Value) (written : Memory) (e : Event) :
    Value :=
  if e.isWrite then
    if e.isRmw then
      computeModifiedValue e.rmwOperation last e.rmwValue e.expectedValue
    else e.value
  else if e.isRead then (find? written e.object).getD (getD mem e.object 0)
  else e.value

/-- What the loop has written after the next event. -/
def nextWritten (mem : Memory) (last : Value) (written : Memory) (e : Event) :
    Memory :=
  if e.isWrite then insert written e.object (nextValue mem last written e)
  else written

theorem replayEvents_cons (mem : Memory) (last : Value) (written : Memory)
    (e : Event) (evs : EventSequence) :
    replayEvents mem last written (e :: evs) =
      e.withValue (nextValue mem last written e) ::
        replayEvents mem (nextValue mem last written e)
          (nextWritten mem last written e) evs := by
  rw [replayEvents, nextWritten, nextValue]
  by_cases hw : e.isWrite
  · simp [hw, Event.withValue]
  · by_cases hr : e.isRead
    · simp [hw, hr, Event.withValue]
    · simp [hw, hr, Event.withValue]

@[simp] theorem map_iid_replayEvents (mem : Memory) (last : Value)
    (written : Memory) (evs : EventSequence) :
    (replayEvents mem last written evs).map (·.iid) = evs.map (·.iid) := by
  induction evs generalizing last written with
  | nil => rfl
  | cons e evs ih =>
    rw [replayEvents_cons, List.map_cons, List.map_cons, ih, Event.withValue_iid]

/-- `e` is the event `e₀`, up to the value of a read or of an rmw write. -/
def IsEventOf (e₀ e : Event) : Prop :=
  e = e₀.withValue e.value ∧ (¬e.isRead → ¬(e.isWrite ∧ e.isRmw) → e = e₀)

theorem isEventOf_nextValue (mem : Memory) (last : Value) (written : Memory)
    (e : Event) : IsEventOf e (e.withValue (nextValue mem last written e)) := by
  refine ⟨rfl, fun hread hw => ?_⟩
  have hr : ¬e.isRead := hread
  have hkept : nextValue mem last written e = e.value := by
    unfold nextValue
    by_cases hwrite : e.isWrite
    · have hrmw : ¬e.isRmw := fun h => hw ⟨hwrite, h⟩
      rw [if_pos hwrite, if_neg hrmw]
    · rw [if_neg hwrite, if_neg hr]
  rw [hkept]
  rfl

/-- The loop changes nothing but values. -/
theorem replayEvents_isEventOf (mem : Memory) (last : Value) (written : Memory)
    (evs : EventSequence) :
    List.Forall₂ IsEventOf evs (replayEvents mem last written evs) := by
  induction evs generalizing last written with
  | nil => exact .nil
  | cons e evs ih =>
    rw [replayEvents_cons]
    exact .cons (isEventOf_nextValue _ _ _ _) (ih _ _)

/-- What the loop has written behind the events `P` of its result. -/
def writtenBehind (written : Memory) (P : EventSequence) : Memory :=
  P.foldl (fun m e => if e.isWrite then insert m e.object e.value else m) written

theorem find?_writtenBehind (written : Memory) (P : EventSequence) (e : Event) :
    find? (writtenBehind written P) e.object =
      ((latest (·.writesTo e) P).map (·.value)).or (find? written e.object) := by
  induction P using List.reverseRecOn with
  | nil => rfl
  | append_singleton P w ih =>
    rw [latest_concat]
    unfold writtenBehind at ih ⊢
    rw [List.foldl_concat]
    by_cases hw : w.writesTo e
    · obtain ⟨hwrite, hobj⟩ := Event.writesTo_iff.mp hw
      rw [if_pos hwrite, if_pos hw, ← hobj, find?_insert_self]
      rfl
    · rw [if_neg hw, ← ih]
      split
      · next hwrite =>
        have hobj : w.object ≠ e.object := fun h =>
          hw (Event.writesTo_iff.mpr ⟨hwrite, h⟩)
        exact find?_insert_ne _ _ hobj
      · rfl

/-- The value behind the events `P` of the result, `last` before them. -/
def lastBehind (last : Value) (P : EventSequence) : Value :=
  (P.getLast?.map (·.value)).getD last

/-- The value that an event of the result has. -/
theorem replayEvents_value {mem : Memory} {last : Value} {written : Memory}
    {evs P Q : EventSequence} {e : Event}
    (h : replayEvents mem last written evs = P ++ e :: Q) :
    ∃ e₀ ∈ evs, e = e₀.withValue
      (nextValue mem (lastBehind last P) (writtenBehind written P) e₀) := by
  induction evs generalizing last written P with
  | nil => simp [replayEvents] at h
  | cons e₀ evs ih =>
    rw [replayEvents_cons] at h
    cases P with
    | nil =>
      rw [List.nil_append] at h
      injection h with he _
      exact ⟨e₀, by simp, he.symm⟩
    | cons p P =>
      rw [List.cons_append] at h
      injection h with hp hrest
      obtain ⟨e₁, hmem, he⟩ := ih hrest
      refine ⟨e₁, List.mem_cons_of_mem _ hmem, ?_⟩
      have hlast : lastBehind last (p :: P) =
          lastBehind (nextValue mem last written e₀) P := by
        unfold lastBehind
        cases P with
        | nil => simp [← hp]
        | cons q P =>
          rw [List.getLast?_cons_cons, List.getLast?_cons]
          rfl
      have hwritten : writtenBehind written (p :: P) =
          writtenBehind (nextWritten mem last written e₀) P := by
        unfold writtenBehind nextWritten
        rw [List.foldl_cons, ← hp]
        rfl
      rw [hlast, hwritten]
      exact he

/-! ## What the values are to be -/

/-- `t` are the events of `s`, looked up by `look`, with the values that they
have when they happen in this order from `mem`: a plain write keeps its value,
a read has the value of the latest earlier write of its object or the one in
`mem`, and an rmw write applies its operation to the value of its read. -/
structure HasValues (look : IID → Event) (mem : Memory) (s : Sequence)
    (t : EventSequence) : Prop where
  ids : t.toIidSequence = s
  events : List.Forall₂ (fun i e => IsEventOf (look i) e) s t
  read : ∀ P e Q, t = P ++ e :: Q → e.isRead →
    e.value = ((latest (·.writesTo e) P).map (·.value)).getD
      (getD mem e.object 0)
  rmwWrite : ∀ P w Q, t = P ++ w :: Q → w.isWrite → w.isRmw →
    ∃ P' r, P = P' ++ [r] ∧ r.iid = ⟨w.iid.pid, w.iid.idx - 1⟩ ∧
      w.value = computeModifiedValue w.rmwOperation r.value w.rmwValue
        w.expectedValue

/-- Every rmw write of `s` stands directly behind its read. -/
def RmwBehindReads (look : IID → Event) (s : Sequence) : Prop :=
  ∀ P w Q, s = P ++ w :: Q → (look w).isWrite → (look w).isRmw →
    ∃ P', P = P' ++ [⟨w.pid, w.idx - 1⟩]

/-- The loop gives the values that the events are to have. -/
theorem hasValues_replayEvents {look : IID → Event} {s : Sequence} (mem : Memory)
    (hids : ∀ i ∈ s, (look i).iid = i) (hrmw : RmwBehindReads look s) :
    HasValues look mem s (replayEvents mem 0 [] (s.map look)) := by
  have hiids : (replayEvents mem 0 [] (s.map look)).map (·.iid) = s := by
    rw [map_iid_replayEvents, List.map_map]
    exact (List.map_congr_left hids).trans s.map_id
  have hlook : ∀ e₀ ∈ s.map look, look e₀.iid = e₀ := by
    intro e₀ he₀
    obtain ⟨i, hi, rfl⟩ := List.mem_map.mp he₀
    rw [hids i hi]
  constructor
  · exact hiids
  · exact List.forall₂_map_left_iff.mp (replayEvents_isEventOf mem 0 [] _)
  · intro P e Q heq hread
    obtain ⟨e₀, _, he⟩ := replayEvents_value heq
    have hread₀ : e₀.isRead := by
      rw [he] at hread
      exact hread
    have hwrite₀ : ¬e₀.isWrite := fun h => by
      rw [Event.isRead_eq_false_of_isWrite h] at hread₀
      cases hread₀
    have hobj : e₀.object = e.object := by rw [he]; rfl
    have hvalue : e.value =
        nextValue mem (lastBehind 0 P) (writtenBehind [] P) e₀ := by
      rw [he]
      rfl
    rw [hvalue, nextValue, if_neg hwrite₀, if_pos hread₀, hobj,
      find?_writtenBehind, find?_nil, Option.or_none]
  · intro P w Q heq hw hrmw'
    obtain ⟨e₀, hmem, he⟩ := replayEvents_value heq
    have hkind : e₀.isWrite ∧ e₀.isRmw := by
      rw [he] at hw hrmw'
      exact ⟨hw, hrmw'⟩
    have hiid : look w.iid = e₀ := by
      rw [he]
      exact hlook e₀ hmem
    have hsplit : s = P.map (·.iid) ++ w.iid :: Q.map (·.iid) := by
      rw [← hiids, heq, List.map_append, List.map_cons]
    obtain ⟨P', hP⟩ := hrmw _ _ _ hsplit (hiid ▸ hkind.1) (hiid ▸ hkind.2)
    -- the event before the write is its read
    obtain ⟨P₀, R₀, rfl, _, hR⟩ := List.map_eq_append_iff.mp hP
    obtain ⟨r, rfl, hr⟩ := List.map_eq_singleton_iff.mp hR
    refine ⟨P₀, r, rfl, hr, ?_⟩
    have hlast : lastBehind 0 (P₀ ++ [r]) = r.value := by
      simp [lastBehind]
    have hvalue : w.value = computeModifiedValue e₀.rmwOperation r.value
        e₀.rmwValue e₀.expectedValue := by
      rw [he, Event.withValue_value, nextValue, if_pos hkind.1, if_pos hkind.2,
        hlast]
    rw [hvalue, he]
    rfl

/-! ## Values with a source of events -/

/-- The event of `e`: the one in the thread table, or else the one in
`source`. -/
def tableOrSource (c : Container) (source : EventSequence) (e : IID) : Event :=
  if e.idx < c.threadSize e.pid then c.getEvent e
  else (source.findIid e).getD default

/-- `e` is in the thread table or in `source`. -/
def Known (c : Container) (source : EventSequence) (e : IID) : Prop :=
  if e.idx < c.threadSize e.pid then (c.getEvent e).iid = e else source.has e

instance (c : Container) (source : EventSequence) (e : IID) :
    Decidable (Known c source e) :=
  inferInstanceAs (Decidable (if e.idx < c.threadSize e.pid then
    (c.getEvent e).iid = e else (source.has e : Prop)))

/-- `e` lies beyond the current end of a thread that exists. -/
def Beyond (c : Container) (e : IID) : Prop :=
  e.pid < c.threads.length ∧ c.threadSize e.pid ≤ e.idx

instance (c : Container) (e : IID) : Decidable (Beyond c e) :=
  inferInstanceAs (Decidable (_ ∧ _))

theorem exists_of_has {source : EventSequence} {e : IID} (h : source.has e) :
    ∃ ev, source.findIid e = some ev ∧ ev.iid = e := by
  obtain ⟨ev, hfind⟩ := Option.isSome_iff_exists.mp h
  have hiid := List.find?_some hfind
  exact ⟨ev, hfind, by simpa using hiid⟩

theorem Known.iid {c : Container} {source : EventSequence} {e : IID}
    (h : Known c source e) : (tableOrSource c source e).iid = e := by
  unfold Known at h
  unfold tableOrSource
  split at h
  · next hlt =>
    rw [if_pos hlt]
    exact h
  · next hlt =>
    obtain ⟨ev, hfind, hiid⟩ := exists_of_has h
    rw [if_neg hlt, hfind]
    exact hiid

/-- The code looks an event up in `source` only if its thread does not
exist. -/
theorem lookupEvent_eq (c : Container) (source : EventSequence) (e : IID) :
    lookupEvent c source e =
      if Beyond c e then default else tableOrSource c source e := by
  unfold lookupEvent tableOrSource Beyond
  by_cases hpid : e.pid < c.threads.length
  · by_cases hidx : e.idx < c.threadSize e.pid
    · simp [hpid, hidx, Nat.not_le.mpr hidx]
    · simp [hpid, hidx, Nat.le_of_not_lt hidx]
  · have hsize : c.threadSize e.pid = 0 := by
      unfold Container.threadSize
      rw [List.getD_eq_default _ _ (Nat.le_of_not_lt hpid)]
      rfl
    simp [hpid, hsize]

theorem forall₂_exists {α β : Type*} {R S : α → β → Prop} {l : List α} {t : List β}
    (h : List.Forall₂ R l t) (h' : List.Forall₂ S l t) {a : α} (ha : a ∈ l) :
    ∃ b, R a b ∧ S a b := by
  induction h with
  | nil => simp at ha
  | cons hr _ ih =>
    cases h' with
    | cons hs hrest =>
      rcases List.mem_cons.mp ha with rfl | ha
      · exact ⟨_, hr, hs⟩
      · exact ih hrest ha

/-- Only the default constructed event comes out of it. -/
theorem IsEventOf.of_default {e : Event} (h : IsEventOf default e) :
    e = default := by
  have hread : ¬e.isRead := by
    rw [h.1, Event.withValue_isRead]
    decide
  have hwrite : ¬e.isWrite := by
    rw [h.1, Event.withValue_isWrite]
    decide
  exact h.2 hread fun hw => hwrite hw.1

/-- `to_event_sequence(source, mem)` gives every event its value, exactly if
no event lies beyond the end of an existing thread, unless `source` itself
has the default constructed event for it. -/
theorem hasValues_toEventSequenceFrom_iff {c : Container}
    {source : EventSequence} {s : Sequence} (mem : Memory)
    (hknown : ∀ e ∈ s, Known c source e)
    (hrmw : RmwBehindReads (tableOrSource c source) s) :
    HasValues (tableOrSource c source) mem s (s.toEventSequenceFrom c source mem) ↔
      ∀ e ∈ s, Beyond c e → source.findIid e = some default := by
  constructor
  · intro hvalues e he hbeyond
    have hcode : List.Forall₂ (fun i ev => IsEventOf (lookupEvent c source i) ev) s
        (s.toEventSequenceFrom c source mem) :=
      List.forall₂_map_left_iff.mp (replayEvents_isEventOf mem 0 [] _)
    obtain ⟨ev, hspec, hcode⟩ := forall₂_exists hvalues.events hcode he
    rw [lookupEvent_eq, if_pos hbeyond] at hcode
    have hev := hcode.of_default
    subst hev
    have hlook : (default : Event) = tableOrSource c source e :=
      hspec.2 (by decide) (by decide)
    have hnot : ¬e.idx < c.threadSize e.pid := Nat.not_lt.mpr hbeyond.2
    have hhas := hknown e he
    unfold Known at hhas
    rw [if_neg hnot] at hhas
    obtain ⟨ev, hfind, _⟩ := exists_of_has hhas
    rw [tableOrSource, if_neg hnot, hfind] at hlook
    rw [hfind, hlook]
    rfl
  · intro hbeyond
    have hlook : s.map (lookupEvent c source) = s.map (tableOrSource c source) := by
      apply List.map_congr_left
      intro e he
      rw [lookupEvent_eq]
      split
      · next h =>
        rw [tableOrSource, if_neg (Nat.not_lt.mpr h.2), hbeyond e he h]
        rfl
      · rfl
    rw [toEventSequenceFrom, hlook]
    exact hasValues_replayEvents mem (fun e he => (hknown e he).iid) hrmw

/-- One thread with a store behind it, and the load of a thread that the
execution does not have. -/
def storeThenLoad : Container × EventSequence :=
  let x : SymAddrSize := ⟨.global 1, 0, 1⟩
  ({ threads := [{ events := [{ Event.makeWrite x [7] with iid := ⟨0, 0⟩ }] }] },
   [{ Event.makeRead x with iid := ⟨0, 1⟩ },
    { Event.makeRead x with iid := ⟨1, 0⟩ }])

theorem rmwBehindReads_of_not_rmw {look : IID → Event} {s : Sequence}
    (h : ∀ e ∈ s, (look e).isRmw = false) : RmwBehindReads look s := by
  intro P w Q heq _ hrmw
  rw [h w (heq ▸ List.mem_append_right P List.mem_cons_self)] at hrmw
  cases hrmw

theorem run_storeThenLoad :
    (∀ e ∈ ([⟨0, 0⟩, ⟨1, 0⟩] : Sequence), Known storeThenLoad.1 storeThenLoad.2 e ∧
        (tableOrSource storeThenLoad.1 storeThenLoad.2 e).isRmw = false) ∧
      (∀ e ∈ ([⟨0, 0⟩, ⟨0, 1⟩] : Sequence), Known storeThenLoad.1 storeThenLoad.2 e ∧
        (tableOrSource storeThenLoad.1 storeThenLoad.2 e).isRmw = false) ∧
      (toEventSequenceFrom storeThenLoad.1 [⟨0, 0⟩, ⟨0, 1⟩] storeThenLoad.2 []).map
        Event.iid ≠ [⟨0, 0⟩, ⟨0, 1⟩] := by
  decide +kernel

theorem hasValues_toEventSequenceFrom_iff_storeThenLoad :
    HasValues (tableOrSource storeThenLoad.1 storeThenLoad.2) []
        [⟨0, 0⟩, ⟨1, 0⟩]
        (toEventSequenceFrom storeThenLoad.1 [⟨0, 0⟩, ⟨1, 0⟩] storeThenLoad.2 []) ↔
      ∀ e ∈ ([⟨0, 0⟩, ⟨1, 0⟩] : Sequence), Beyond storeThenLoad.1 e →
        EventSequence.findIid storeThenLoad.2 e = some default :=
  hasValues_toEventSequenceFrom_iff [] (fun e he => (run_storeThenLoad.1 e he).1)
    (rmwBehindReads_of_not_rmw fun e he => (run_storeThenLoad.1 e he).2)

/-- An event beyond the end of an existing thread comes out default
constructed, though `source` has it. -/
theorem not_hasValues_toEventSequenceFrom :
    ¬∀ (c : Container) (source : EventSequence) (s : Sequence) (mem : Memory),
      (∀ e ∈ s, Known c source e) → RmwBehindReads (tableOrSource c source) s →
      HasValues (tableOrSource c source) mem s
        (s.toEventSequenceFrom c source mem) := by
  intro h
  have hvalues := h storeThenLoad.1 storeThenLoad.2 [⟨0, 0⟩, ⟨0, 1⟩] []
    (fun e he => (run_storeThenLoad.2.1 e he).1)
    (rmwBehindReads_of_not_rmw fun e he => (run_storeThenLoad.2.1 e he).2)
  exact absurd hvalues.ids run_storeThenLoad.2.2

end Sequence

/-! ## Late completion of an rmw -/

namespace EventSequence

open Sequence

/-- The value that the recomputation gives to the next event. -/
def recomputedValue (last : Value) (written : Memory) (e : Event) : Value :=
  if e.isWrite then
    if e.isRmw then
      computeModifiedValue e.rmwOperation last e.rmwValue e.expectedValue
    else e.value
  else if e.isRead then (find? written e.object).getD e.value
  else e.value

theorem recompute_cons (last : Value) (written : Memory) (e : Event)
    (s : EventSequence) :
    recompute last written (e :: s) =
      e.withValue (recomputedValue last written e) ::
        recompute (recomputedValue last written e)
          (if e.isWrite then
            insert written e.object (recomputedValue last written e)
          else written) s := by
  rw [recompute, recomputedValue]
  by_cases hw : e.isWrite
  · simp [hw, Event.withValue]
  · by_cases hr : e.isRead
    · simp [hw, hr, Event.withValue]
    · simp [hw, hr, Event.withValue]

/-- An event that already has a value gets the one that `to_event_sequence`
would give it, if every object that was written then is written now. -/
theorem recomputedValue_withValue {mem : Memory} {last last₀ : Value}
    {written written₀ : Memory}
    (hkeys : ∀ o, find? written o = none → find? written₀ o = none) (e : Event) :
    recomputedValue last written (e.withValue (nextValue mem last₀ written₀ e)) =
      nextValue mem last written e := by
  unfold recomputedValue nextValue
  simp only [Event.withValue_isWrite, Event.withValue_isRead,
    Event.withValue_object, Event.withValue_value]
  by_cases hw : e.isWrite
  · simp only [hw, if_true]
    cases hrmw : e.isRmw with
    | true => simp [Event.withValue, hrmw]
    | false => simp [Event.withValue, hrmw]
  · simp only [hw, Bool.false_eq_true, if_false]
    by_cases hr : e.isRead
    · simp only [hr, if_true]
      cases hfind : find? written e.object with
      | none => rw [hkeys _ hfind]; rfl
      | some v => rfl
    · simp only [hr, Bool.false_eq_true, if_false]

theorem nextWritten_keys {mem : Memory} {last last₀ : Value}
    {written written₀ : Memory}
    (hkeys : ∀ o, find? written o = none → find? written₀ o = none) (e : Event)
    (o : Object) (h : find? (nextWritten mem last written e) o = none) :
    find? (nextWritten mem last₀ written₀ e) o = none := by
  unfold nextWritten at h ⊢
  split at h
  · next hw =>
    rw [if_pos hw]
    rw [find?_insert] at h ⊢
    split at h
    · cases h
    · next hne =>
      rw [if_neg hne]
      exact hkeys o h
  · next hw =>
    rw [if_neg hw]
    exact hkeys o h

theorem recompute_replayEvents_cons {mem : Memory} {last last₀ : Value}
    {written written₀ : Memory}
    (hkeys : ∀ o, find? written o = none → find? written₀ o = none) (e : Event)
    (s : EventSequence) :
    recompute last written (e.withValue (nextValue mem last₀ written₀ e) :: s) =
      e.withValue (nextValue mem last written e) ::
        recompute (nextValue mem last written e)
          (nextWritten mem last written e) s := by
  rw [recompute_cons, recomputedValue_withValue hkeys]
  rfl

/-- The recomputation of replayed events is their replay. -/
theorem recompute_replayEvents {mem : Memory} {last last₀ : Value}
    {written written₀ : Memory} {evs : EventSequence}
    (hkeys : ∀ o, find? written o = none → find? written₀ o = none) :
    recompute last written (replayEvents mem last₀ written₀ evs) =
      replayEvents mem last written evs := by
  induction evs generalizing last last₀ written written₀ with
  | nil => rfl
  | cons e evs ih =>
    rw [replayEvents_cons, recompute_replayEvents_cons hkeys, replayEvents_cons,
      ih (nextWritten_keys hkeys e)]

/-- The recomputation of replayed events with a write among them is the replay
with the write in its place. -/
theorem recompute_insertAfter {mem : Memory} {last last₀ : Value}
    {written written₀ : Memory} {evs : EventSequence} {p : Event → Bool} {w : Event}
    (hp : ∀ e v, p (e.withValue v) = p e) (hw : w.isWrite)
    (hkeys : ∀ o, find? written o = none → find? written₀ o = none) :
    recompute last written (insertAfter p w (replayEvents mem last₀ written₀ evs)) =
      replayEvents mem last written (insertAfter p w evs) := by
  induction evs generalizing last last₀ written written₀ with
  | nil => rfl
  | cons e evs ih =>
    rw [replayEvents_cons, insertAfter, insertAfter, hp]
    cases p e with
    | false =>
      simp only [Bool.false_eq_true, if_false]
      rw [recompute_replayEvents_cons hkeys, replayEvents_cons,
        ih (nextWritten_keys hkeys e)]
    | true =>
      simp only [if_true]
      rw [recompute_replayEvents_cons hkeys, replayEvents_cons, recompute_cons,
        replayEvents_cons]
      have hvalue : ∀ l m, recomputedValue l m w = nextValue mem l m w := by
        intro l m
        unfold recomputedValue nextValue
        rw [if_pos hw, if_pos hw]
      -- the write only adds to what was written
      have hkeys' : ∀ l m o, find? (nextWritten mem l m w) o = none →
          find? m o = none := by
        intro l m o h
        unfold nextWritten at h
        rw [if_pos hw, find?_insert] at h
        split at h
        · cases h
        · exact h
      rw [hvalue]
      congr 2
      exact recompute_replayEvents fun o h =>
        nextWritten_keys hkeys e o (hkeys' _ _ o h)

/-- `find_iid` in the events of a sequence is the search for the identifier. -/
theorem map_getEvent_insertAfter {c : Container} {s : Sequence} {r w : IID}
    (hs : c.Stores s) :
    (insertAfter (· = r) w s).map c.getEvent =
      insertAfter (fun ev => ev.iid = r) (c.getEvent w) (s.map c.getEvent) := by
  induction s with
  | nil => rfl
  | cons e s ih =>
    have hiid : (c.getEvent e).iid = e := (hs e List.mem_cons_self).2
    have hrest := ih fun i hi => hs i (List.mem_cons_of_mem e hi)
    rw [List.map_cons, insertAfter, insertAfter, hiid]
    split
    · rw [List.map_cons, List.map_cons]
    · rw [List.map_cons, hrest]

/-- To add the write of an rmw to the events of a sequence is to have it in
the sequence from the start. -/
theorem addRmwWrite_toEventSequence {c : Container} {s : Sequence} {r w : IID}
    (mem : Memory) (hs : c.Stores s) (hw : (c.getEvent w).isWrite) :
    (s.toEventSequence c mem).addRmwWrite c r w =
      (s.addRmwWrite r w).toEventSequence c mem := by
  unfold addRmwWrite Sequence.addRmwWrite toEventSequence
  rw [map_getEvent_insertAfter hs]
  exact recompute_insertAfter (fun _ _ => rfl) hw fun _ h => h

/-- A store of one thread and the rmw of another one, and a load behind
them. -/
def storeAndRmw : Container :=
  let x : SymAddrSize := ⟨.global 1, 0, 1⟩
  { threads :=
      [{ events := [{ Event.makeWrite x [7] with iid := ⟨0, 0⟩ }] },
       { events :=
          [{ Event.makeRead x with iid := ⟨1, 0⟩, isRmw := true },
           { Event.makeWrite x [1] with
              iid := ⟨1, 1⟩, isRmw := true, rmwOperation := .add, rmwValue := 1 },
           { Event.makeRead x with iid := ⟨1, 2⟩ }] }] }

theorem addRmwWrite_toEventSequence_storeAndRmw :
    (Sequence.toEventSequence storeAndRmw [⟨0, 0⟩, ⟨1, 0⟩, ⟨1, 2⟩] []).addRmwWrite
        storeAndRmw ⟨1, 0⟩ ⟨1, 1⟩ =
      Sequence.toEventSequence storeAndRmw
        (Sequence.addRmwWrite [⟨0, 0⟩, ⟨1, 0⟩, ⟨1, 2⟩] ⟨1, 0⟩ ⟨1, 1⟩) [] :=
  addRmwWrite_toEventSequence [] (by decide +kernel) (by decide +kernel)

end EventSequence

end ViEqui
