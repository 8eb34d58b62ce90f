import ViEqui.RmwAtomic
import ViEqui.SequenceValues

/-!
# Sequences that replay to recorded values

The thread table holds the events with the values that they had in the
execution.  A replay of some of them, in another order, gives an event this
value when it gives it to the events that it depends on.

* `ExecutionSequence`: a sequence with the values of its own replay.
* `valueIn`: the value of an object behind a part of it.
* `keepsValue_of_sourced`: which events of a sequence keep their values in a
  replay.
-/

namespace ViEqui

open AssocMap Precedence Adjacency

namespace Sequence

variable {c : Container} {mem : Memory}

/-! ## Replays -/

theorem replayEvents_append (last : Value) (written : Memory) (A B : EventSequence) :
    replayEvents mem last written (A ++ B) =
      replayEvents mem last written A ++
        replayEvents mem (lastBehind last (replayEvents mem last written A))
          (writtenBehind written (replayEvents mem last written A)) B := by
  induction A generalizing last written with
  | nil => rfl
  | cons e A ih =>
    have hlast (t : EventSequence) : lastBehind last (e.withValue
        (nextValue mem last written e) :: t) = lastBehind (nextValue mem last written e) t := by
      unfold lastBehind
      rw [List.getLast?_cons]
      cases t.getLast? with
      | none => rfl
      | some _ => rfl
    have hwritten (t : EventSequence) : writtenBehind written (e.withValue
        (nextValue mem last written e) :: t) =
        writtenBehind (nextWritten mem last written e) t := by
      unfold writtenBehind nextWritten
      rw [List.foldl_cons]
      rfl
    rw [List.cons_append, replayEvents_cons, replayEvents_cons, ih, hlast, hwritten,
      List.cons_append]

/-- The value that `x` has in a replay behind the events `t`. -/
def valueBehind (c : Container) (mem : Memory) (t : EventSequence) (x : IID) : Value :=
  nextValue mem (lastBehind 0 t) (writtenBehind [] t) (c.getEvent x)

theorem toEventSequence_append_cons (c : Container) (mem : Memory) (A B : Sequence) (x : IID) :
    ∃ t, toEventSequence c (A ++ x :: B) mem =
      toEventSequence c A mem ++
        (c.getEvent x).withValue (valueBehind c mem (toEventSequence c A mem) x) :: t := by
  unfold toEventSequence
  rw [List.map_append, replayEvents_append, List.map_cons, replayEvents_cons]
  exact ⟨_, rfl⟩

theorem toEventSequence_concat (A : Sequence) (x : IID) :
    toEventSequence c (A ++ [x]) mem = toEventSequence c A mem ++
      [(c.getEvent x).withValue (valueBehind c mem (toEventSequence c A mem) x)] := by
  unfold toEventSequence
  rw [List.map_append, replayEvents_append, List.map_singleton, replayEvents_cons]
  rfl

theorem valueBehind_read {t : EventSequence} {x : IID} (hread : (c.getEvent x).isRead) :
    valueBehind c mem t x =
      ((latest (·.writesTo (c.getEvent x)) t).map (·.value)).getD
        (getD mem (c.getEvent x).object 0) := by
  have hwrite : ¬(c.getEvent x).isWrite := fun h => by
    rw [Event.isRead_eq_false_of_isWrite h] at hread
    cases hread
  rw [valueBehind, nextValue, if_neg hwrite, if_pos hread, find?_writtenBehind, find?_nil,
    Option.or_none]

theorem valueBehind_rmwWrite {t : EventSequence} {e : Event} {x : IID}
    (hw : c.isRmwWrite x) :
    valueBehind c mem (t ++ [e]) x = computeModifiedValue (c.getEvent x).rmwOperation e.value
      (c.getEvent x).rmwValue (c.getEvent x).expectedValue := by
  simp only [Container.isRmwWrite, Bool.and_eq_true] at hw
  rw [valueBehind, nextValue, if_pos hw.1, if_pos hw.2]
  simp [lastBehind]

theorem valueBehind_of_plain {t : EventSequence} {x : IID} (hread : ¬(c.getEvent x).isRead)
    (hw : ¬c.isRmwWrite x) : valueBehind c mem t x = (c.getEvent x).value := by
  unfold valueBehind nextValue
  by_cases hwrite : (c.getEvent x).isWrite
  · have hrmw : ¬(c.getEvent x).isRmw := fun h =>
      hw (by simp [Container.isRmwWrite, hwrite, h])
    rw [if_pos hwrite, if_neg hrmw]
  · rw [if_neg hwrite, if_neg hread]

/-! ## Events that keep their values -/

/-- The event `e` is the one of `x` up to its value, and has the recorded value
when `K` holds of `x`. -/
def KeepsValue (c : Container) (K : IID → Prop) (x : IID) (e : Event) : Prop :=
  e = (c.getEvent x).withValue e.value ∧ (K x → e.value = (c.getEvent x).value)

/-- The reads among `K` read in `R` what they have read in the execution, from
a write among `K` or from the memory, and an rmw write among `K` stands behind
its read. -/
structure Sourced (c : Container) (mem : Memory) (K : IID → Prop) (R : Sequence) :
    Prop where
  read : ∀ A x B, R = A ++ x :: B → K x → (c.getEvent x).isRead →
    match latest (fun w => (c.getEvent w).writesTo (c.getEvent x)) A with
    | some w => K w ∧ (c.getEvent w).value = (c.getEvent x).value
    | none => getD mem (c.getEvent x).object 0 = (c.getEvent x).value
  rmwWrite : ∀ A w B, R = A ++ w :: B → K w → c.isRmwWrite w →
    ∃ A' r, A = A' ++ [r] ∧ K r ∧
      (c.getEvent w).value = computeModifiedValue (c.getEvent w).rmwOperation
        (c.getEvent r).value (c.getEvent w).rmwValue (c.getEvent w).expectedValue

theorem Sourced.of_append {K : IID → Prop} {R B : Sequence} (h : Sourced c mem K (R ++ B)) :
    Sourced c mem K R where
  read := fun A x B' heq => h.read A x (B' ++ B) (by rw [heq, List.append_assoc]; rfl)
  rmwWrite := fun A w B' heq => h.rmwWrite A w (B' ++ B) (by rw [heq, List.append_assoc]; rfl)

/-- Events with the sources that they had in the execution keep their
values. -/
theorem keepsValue_of_sourced {K : IID → Prop} {R : Sequence} (h : Sourced c mem K R) :
    List.Forall₂ (KeepsValue c K) R (toEventSequence c R mem) := by
  induction R using List.reverseRecOn with
  | nil => exact .nil
  | append_singleton R x ih =>
    have hR := ih h.of_append
    rw [toEventSequence_concat]
    refine List.rel_append hR (.cons ⟨rfl, fun hK => ?_⟩ .nil)
    show valueBehind c mem (toEventSequence c R mem) x = (c.getEvent x).value
    by_cases hread : (c.getEvent x).isRead
    · -- the latest write is among `K`
      have hsource := h.read R x [] rfl hK hread
      have hkind (w : IID) (e : Event) (hw : KeepsValue c K w e) :
          (c.getEvent w).writesTo (c.getEvent x) = e.writesTo (c.getEvent x) := by
        rw [hw.1]
        rfl
      rw [valueBehind_read hread]
      rcases latest_forall₂ hR hkind with ⟨hnone, hnone'⟩ | ⟨w, e, hw, he, hkeeps⟩
      · rw [hnone] at hsource
        rw [hnone']
        exact hsource
      · rw [hw] at hsource
        rw [he]
        exact (hkeeps.2 hsource.1).trans hsource.2
    · by_cases hw : c.isRmwWrite x
      · obtain ⟨A, r, rfl, hr, hvalue⟩ := h.rmwWrite R x [] rfl hK hw
        rw [toEventSequence_concat] at hR ⊢
        have hlast := List.forall₂_reverse_iff.mpr hR
        rw [List.reverse_append, List.reverse_append] at hlast
        have hkeeps := (List.forall₂_cons.mp hlast).1.2 hr
        rw [valueBehind_rmwWrite hw, hkeeps]
        exact hvalue.symm
      · exact valueBehind_of_plain hread hw

/-- The value that `x` has in the replay of `R`. -/
def replayedValue (c : Container) (mem : Memory) (R : Sequence) (x : IID) : Option Value :=
  ((toEventSequence c R mem).findIid x).map (·.value)

theorem findIid_of_forall₂ {K : IID → Prop} {R : Sequence} {t : EventSequence}
    (h : List.Forall₂ (KeepsValue c K) R t) (hiid : ∀ x ∈ R, (c.getEvent x).iid = x) {x : IID}
    (hx : x ∈ R) : ∃ e, t.findIid x = some e ∧ KeepsValue c K x e := by
  induction h with
  | nil => cases hx
  | @cons y e R t hy _ ih =>
    have hiid' : e.iid = y := by
      rw [hy.1]
      exact hiid y List.mem_cons_self
    by_cases hxy : y = x
    · subst hxy
      exact ⟨e, List.find?_cons_of_pos (by simpa using hiid'), hy⟩
    · obtain ⟨e', hfind, hkeeps⟩ := ih (fun z hz => hiid z (List.mem_cons_of_mem y hz))
        ((List.mem_cons.mp hx).resolve_left (Ne.symm hxy))
      refine ⟨e', ?_, hkeeps⟩
      rw [← hfind]
      exact List.find?_cons_of_neg (by simpa [hiid'] using hxy)

theorem replayedValue_eq {K : IID → Prop} {R : Sequence} (h : Sourced c mem K R)
    (hiid : ∀ x ∈ R, (c.getEvent x).iid = x) {x : IID} (hx : x ∈ R) (hK : K x) :
    replayedValue c mem R x = some (c.getEvent x).value := by
  obtain ⟨e, hfind, hkeeps⟩ := findIid_of_forall₂ (keepsValue_of_sourced h) hiid hx
  rw [replayedValue, hfind, Option.map_some, hkeeps.2 hK]

/-! ## Execution sequences -/

/-- `s` is an execution from the memory `mem`, and the thread table has its
events with their values: each thread's events are in order, the halves of an
rmw stand together and agree on the object and the expected value. -/
structure ExecutionSequence (c : Container) (mem : Memory) (s : Sequence) : Prop where
  nodup : s.Nodup
  iid : ∀ e ∈ s, (c.getEvent e).iid = e
  ordered : ThreadOrdered s
  values : toEventSequence c s mem = s.map c.getEvent
  atomic : RmwAtomic c s
  halves : ∀ w ∈ s, c.isRmwWrite w →
    (c.getEvent ⟨w.pid, w.idx - 1⟩).object = (c.getEvent w).object ∧
      (c.getEvent ⟨w.pid, w.idx - 1⟩).expectedValue = (c.getEvent w).expectedValue

theorem executionSequence_iff {s : Sequence} :
    ExecutionSequence c mem s ↔
      s.Nodup ∧ (∀ e ∈ s, (c.getEvent e).iid = e) ∧ ThreadOrdered s ∧
        toEventSequence c s mem = s.map c.getEvent ∧ RmwAtomic c s ∧
        ∀ w ∈ s, c.isRmwWrite w →
          (c.getEvent ⟨w.pid, w.idx - 1⟩).object = (c.getEvent w).object ∧
            (c.getEvent ⟨w.pid, w.idx - 1⟩).expectedValue = (c.getEvent w).expectedValue :=
  ⟨fun h => ⟨h.nodup, h.iid, h.ordered, h.values, h.atomic, h.halves⟩,
    fun ⟨h1, h2, h3, h4, h5, h6⟩ => ⟨h1, h2, h3, h4, h5, h6⟩⟩

instance (c : Container) (mem : Memory) (s : Sequence) :
    Decidable (ExecutionSequence c mem s) :=
  decidable_of_iff' _ executionSequence_iff

/-- The memory behind the events `A`, with their recorded values. -/
def memoryBehind (c : Container) (mem : Memory) (A : Sequence) : Memory :=
  writtenBehind mem (A.map c.getEvent)

/-- The value of the object `o` behind the events `A`. -/
def valueIn (c : Container) (mem : Memory) (A : Sequence) (o : Object) : Value :=
  getD (memoryBehind c mem A) o 0

theorem valueIn_concat (A : Sequence) (y : IID) (o : Object) :
    valueIn c mem (A ++ [y]) o =
      if (c.getEvent y).isWrite ∧ (c.getEvent y).object = o then (c.getEvent y).value
      else valueIn c mem A o := by
  unfold valueIn memoryBehind writtenBehind
  rw [List.map_append, List.map_singleton, List.foldl_concat]
  by_cases hw : (c.getEvent y).isWrite
  · by_cases ho : (c.getEvent y).object = o
    · simp [hw, ho, getD_insert]
    · simp [hw, ho, getD_insert]
  · simp [hw]

namespace ExecutionSequence

variable {s A B : Sequence} {x : IID}

theorem value_eq (hs : ExecutionSequence c mem (A ++ x :: B)) :
    (c.getEvent x).value = valueBehind c mem (A.map c.getEvent) x := by
  obtain ⟨t, ht⟩ := toEventSequence_append_cons c mem A B x
  have hvalues := hs.values
  rw [ht, List.map_append, List.map_cons] at hvalues
  have hlength : (toEventSequence c A mem).length = (A.map c.getEvent).length := by
    have hmap := congrArg List.length (map_iid_replayEvents mem 0 [] (A.map c.getEvent))
    rwa [List.length_map, List.length_map] at hmap
  obtain ⟨hA, hrest⟩ := List.append_inj hvalues hlength
  rw [hA] at hrest
  injection hrest with hx _
  exact (congrArg Event.value hx).symm

/-- A read has the value of its object. -/
theorem read_value (hs : ExecutionSequence c mem (A ++ x :: B))
    (hread : (c.getEvent x).isRead) :
    (c.getEvent x).value = valueIn c mem A (c.getEvent x).object := by
  rw [hs.value_eq, valueBehind_read hread]
  show _ = (find? (writtenBehind mem (A.map c.getEvent)) (c.getEvent x).object).getD 0
  rw [find?_writtenBehind]
  cases latest (·.writesTo (c.getEvent x)) (A.map c.getEvent) with
  | none => rfl
  | some w => rfl

/-- The read of an rmw stands before its write, which applies its operation to
the value of the read. -/
theorem rmwWrite_value (hs : ExecutionSequence c mem (A ++ x :: B)) (hw : c.isRmwWrite x) :
    ∃ A', A = A' ++ [⟨x.pid, x.idx - 1⟩] ∧ c.isOwnRmwRead ⟨x.pid, x.idx - 1⟩ x ∧
      (c.getEvent x).value = computeModifiedValue (c.getEvent x).rmwOperation
        (c.getEvent ⟨x.pid, x.idx - 1⟩).value (c.getEvent x).rmwValue
        (c.getEvent x).expectedValue := by
  have hprev := (rmwAtomicAfter_insert.mp hs.atomic).2.1 hw
  rw [Option.or_none] at hprev
  obtain ⟨r, hlast, hown⟩ := (Option.any_eq_true _ _).mp hprev
  obtain ⟨A', rfl⟩ := List.getLast?_eq_some_iff.mp hlast
  obtain rfl := Container.isOwnRmwRead_unique hown
    (isOwnRmwRead_pred (w := x) (by simp) hs.atomic hw)
  refine ⟨A', rfl, hown, ?_⟩
  rw [hs.value_eq, List.map_append, List.map_singleton, valueBehind_rmwWrite hw]

end ExecutionSequence

end Sequence

end ViEqui
