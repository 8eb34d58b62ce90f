import ViEqui.Lib.OrderedMap
import Mathlib.Algebra.BigOperators.Fin
import Mathlib.Algebra.Order.BigOperators.Group.Multiset
import Mathlib.Tactic.Abel

/-!
# The work-stealing scheduler

`WorkstealingPQScheduler` keeps one queue of decision nodes for each worker.
A worker adds to its own queue and takes the deepest node of it.  A worker
whose queue is empty takes half of the shallowest list of another queue, and
waits on a condition variable when all the queues it looks at are empty.

* `ThreadWorkQueue`: the operations on one queue.
* `WorkstealingPQScheduler`: the queues, where each worker stands in the
  code, and two ghost lists: the nodes given to `enqueue` and the nodes that
  `dequeue` returned.
* `Step`: a mutex-protected section of one worker.  The loop over the other
  queues holds the big lock `mutex` and takes the lock of one queue at a
  time, so each round of it is a step.
* `Inv`: the invariant of the steps, and `losesNothing_of_reachable`.

A node is any value with a depth: the scheduler reads nothing else of it.
-/

namespace ViEqui

/-- `std::map<int, std::deque<std::shared_ptr<DecisionNode>>>`. -/
abbrev ThreadWorkQueue (α : Type) := OrderedMap Int (List α)

namespace ThreadWorkQueue

variable {α : Type}

/-- `push`. -/
def push (depth : α → Int) (q : ThreadWorkQueue α) (x : α) :
    ThreadWorkQueue α :=
  q.modify (depth x) [] (fun l => l ++ [x])

/-- `pop`: the front of the deepest list.  There is no result where the
source asserts that the queue and its lists are not empty. -/
def pop (q : ThreadWorkQueue α) : Option (α × ThreadWorkQueue α) :=
  match q.last? with
  | some (_, x :: l) => some (x, if l.isEmpty then q.eraseLast else q.setLast l)
  | _ => none

/-- The loop of `steal`: `count` elements go from the back of `theirs` to
the front of `mine`. -/
def moveBack : Nat → List α → List α → List α × List α
  | 0, mine, theirs => (mine, theirs)
  | count + 1, mine, theirs =>
    match theirs.getLast? with
    | some x => moveBack count (x :: mine) theirs.dropLast
    | none => (mine, theirs)

/-- `steal`: the answer, the queue of the thief and the queue `other`. -/
def steal (q other : ThreadWorkQueue α) :
    Bool × ThreadWorkQueue α × ThreadWorkQueue α :=
  match other.first? with
  | none => (false, q, other)
  | some (d, l) =>
    let moved := moveBack ((l.length + 1) / 2) [] l
    (true, q.modify d [] (fun mine => moved.1 ++ mine),
      if moved.2.isEmpty then other.eraseFirst else other.setFirst moved.2)

/-- The property of `operator[]` that `erase` restores: no list of a depth
is empty. -/
def NoEmptyDepth (q : ThreadWorkQueue α) : Prop := q.All (· ≠ [])

/-! ## One operation on one queue -/

theorem contents_push (depth : α → Int) (q : ThreadWorkQueue α) (x : α) :
    (q.push depth x).contents.Perm (x :: q.contents) := by
  show (q.push depth x).contents.Perm ([x] ++ q.contents)
  exact OrderedMap.contents_modify q (depth x)
    (fun l => List.perm_append_singleton x l)

theorem noEmptyDepth_push (depth : α → Int) {q : ThreadWorkQueue α}
    (h : q.NoEmptyDepth) (x : α) : (q.push depth x).NoEmptyDepth :=
  h.modify (depth x) [] (by simp) (by simp)

/-- What `pop` returns leaves the queue, and nothing else does. -/
theorem contents_pop {q q' : ThreadWorkQueue α} {x : α}
    (h : q.pop = some (x, q')) : q.contents.Perm (x :: q'.contents) := by
  unfold pop at h
  split at h
  · rename_i d y l hlast
    cases h
    split
    · rename_i hl
      rw [OrderedMap.contents_last hlast, List.isEmpty_iff.mp hl]
      exact List.perm_append_singleton x _
    · rw [OrderedMap.contents_last hlast, OrderedMap.contents_setLast hlast]
      exact List.perm_middle
  · cases h

theorem noEmptyDepth_pop {q q' : ThreadWorkQueue α} {x : α}
    (h : q.pop = some (x, q')) (hq : q.NoEmptyDepth) : q'.NoEmptyDepth := by
  unfold pop at h
  split at h
  · cases h
    split
    · exact hq.eraseLast
    · rename_i hl
      exact hq.setLast (fun heq => hl (List.isEmpty_iff.mpr heq))
  · cases h

/-- On a queue that is not empty the assertions of `pop` hold. -/
theorem exists_pop {q : ThreadWorkQueue α} (hq : q.NoEmptyDepth)
    (h : ¬ q.isEmpty) : ∃ x q', q.pop = some (x, q') := by
  unfold pop
  cases hlast : q.last? with
  | none => exact absurd (OrderedMap.last?_eq_none.mp hlast) h
  | some e =>
    obtain ⟨d, l⟩ := e
    cases l with
    | nil =>
      obtain ⟨rest, hentries⟩ := OrderedMap.entries_of_last? hlast
      exact absurd rfl (hq (d, []) (by rw [hentries]; simp))
    | cons x l => exact ⟨_, _, rfl⟩

/-- The loop keeps what stands on both sides in order. -/
theorem moveBack_append (count : Nat) (mine theirs : List α) :
    (moveBack count mine theirs).2 ++ (moveBack count mine theirs).1 =
      theirs ++ mine := by
  induction count generalizing mine theirs with
  | zero => rfl
  | succ count ih =>
    unfold moveBack
    cases hlast : theirs.getLast? with
    | none => rfl
    | some x =>
      obtain ⟨rest, rfl⟩ := List.getLast?_eq_some_iff.mp hlast
      show (moveBack count (x :: mine) (rest ++ [x]).dropLast).2 ++
        (moveBack count (x :: mine) (rest ++ [x]).dropLast).1 = _
      rw [ih, List.dropLast_concat]
      simp

theorem length_moveBack (count : Nat) (mine theirs : List α) :
    (moveBack count mine theirs).1.length =
      mine.length + min count theirs.length := by
  induction count generalizing mine theirs with
  | zero => simp [moveBack]
  | succ count ih =>
    unfold moveBack
    cases hlast : theirs.getLast? with
    | none =>
      rw [List.getLast?_eq_none_iff] at hlast
      simp [hlast]
    | some x =>
      obtain ⟨rest, rfl⟩ := List.getLast?_eq_some_iff.mp hlast
      simp only [ih, List.dropLast_concat, List.length_cons,
        List.length_append, List.length_nil, Nat.zero_add, Nat.add_min_add_right]
      exact Nat.add_right_comm _ _ _

/-- `steal` fails on an empty queue, and then it changes nothing. -/
theorem steal_false {q other q' other' : ThreadWorkQueue α}
    (h : q.steal other = (false, q', other')) :
    other.isEmpty ∧ q' = q ∧ other' = other := by
  unfold steal at h
  split at h
  · rename_i hfirst
    cases h
    exact ⟨OrderedMap.first?_eq_none.mp hfirst, rfl, rfl⟩
  · cases h

/-- A thief has something after a theft. -/
theorem not_isEmpty_steal {q other q' other' : ThreadWorkQueue α}
    (h : q.steal other = (true, q', other')) : ¬ q'.isEmpty := by
  unfold steal at h
  split at h
  · cases h
  · cases h
    exact OrderedMap.not_isEmpty_modify q _ _ _

/-- `steal` moves nodes between the two queues. -/
theorem contents_steal {q other q' other' : ThreadWorkQueue α} {b : Bool}
    (h : q.steal other = (b, q', other')) :
    (q'.contents ++ other'.contents).Perm (q.contents ++ other.contents) := by
  unfold steal at h
  split at h
  · cases h
    exact List.Perm.refl _
  · rename_i d l hfirst
    cases h
    have happ := moveBack_append ((l.length + 1) / 2) [] l
    generalize moveBack ((l.length + 1) / 2) [] l = moved at happ ⊢
    rw [List.append_nil] at happ
    have hother : (if moved.2.isEmpty then other.eraseFirst
        else other.setFirst moved.2).contents =
        moved.2 ++ other.eraseFirst.contents := by
      split
      · rename_i hempty
        rw [List.isEmpty_iff.mp hempty, List.nil_append]
      · exact OrderedMap.contents_setFirst hfirst moved.2
    rw [hother, OrderedMap.contents_first hfirst, ← happ]
    have hq : (q.modify d [] fun mine => moved.1 ++ mine).contents.Perm
        (moved.1 ++ q.contents) :=
      q.contents_modify d (fun l => List.Perm.refl _)
    refine (hq.append_right _).trans ?_
    simp only [← Multiset.coe_eq_coe, ← Multiset.coe_add]
    abel

theorem noEmptyDepth_steal {q other q' other' : ThreadWorkQueue α} {b : Bool}
    (h : q.steal other = (b, q', other')) (hq : q.NoEmptyDepth)
    (ho : other.NoEmptyDepth) : q'.NoEmptyDepth ∧ other'.NoEmptyDepth := by
  unfold steal at h
  split at h
  · cases h
    exact ⟨hq, ho⟩
  · rename_i d l hfirst
    obtain ⟨rest, hentries⟩ := OrderedMap.entries_of_first? hfirst
    have hl : l ≠ [] := ho (d, l) (by rw [hentries]; simp)
    have hpos : 0 < l.length := List.length_pos_iff.mpr hl
    have hlen := length_moveBack ((l.length + 1) / 2) [] l
    cases h
    generalize moveBack ((l.length + 1) / 2) [] l = moved at hlen ⊢
    have hmoved : moved.1 ≠ [] := by
      rw [← List.length_pos_iff, hlen, List.length_nil]
      omega
    constructor
    · refine hq.modify d [] ?_ ?_
      · simpa using hmoved
      · intro mine _
        simp [hmoved]
    · split
      · exact ho.eraseFirst
      · rename_i hrest
        exact ho.setFirst (fun heq => hrest (List.isEmpty_iff.mpr heq))

end ThreadWorkQueue

/-! ## What a scheduler is for -/

/-- A scheduler to its users: a bag of nodes, with the calls so far. -/
structure Pool (α : Type) where
  queued : Multiset α
  /-- The nodes that were passed to `enqueue`. -/
  enqueued : List α
  /-- The nodes that `dequeue` returned. -/
  returned : List α

namespace Pool

variable {α : Type}

/-- `enqueue` puts a node into the bag, and `dequeue` takes any of it. -/
inductive Step : Pool α → Pool α → Prop
  | put (p : Pool α) (x : α) :
      Step p ⟨x ::ₘ p.queued, x :: p.enqueued, p.returned⟩
  | take (x : α) (queued : Multiset α) (enqueued returned : List α) :
      Step ⟨x ::ₘ queued, enqueued, returned⟩ ⟨queued, enqueued, x :: returned⟩

/-- A node is returned or queued as often as it was enqueued. -/
def Accounted (p : Pool α) : Prop :=
  (p.returned : Multiset α) + p.queued = (p.enqueued : Multiset α)

theorem Step.accounted {p p' : Pool α} (hstep : Step p p')
    (h : p.Accounted) : p'.Accounted := by
  cases hstep with
  | put _ x =>
    show (p.returned : Multiset α) + x ::ₘ p.queued =
      ((x :: p.enqueued : List α) : Multiset α)
    rw [Multiset.add_cons, show _ = _ from h, Multiset.cons_coe]
  | take x queued enqueued returned =>
    show ((x :: returned : List α) : Multiset α) + queued = (enqueued : Multiset α)
    rw [← Multiset.cons_coe, Multiset.cons_add, ← Multiset.add_cons]
    exact h

end Pool

/-! ## The scheduler -/

/-- Where a worker stands. -/
inductive Place (n : Nat) where
  /-- Outside `dequeue`. -/
  | running
  /-- Its own queue was empty, or `cv.wait` returned: it needs `mutex`. -/
  | locking
  /-- It holds `mutex`, and these queues are left of the loop. -/
  | scanning (others : List (Fin (n + 1)))
  /-- Blocked in `cv.wait`. -/
  | waiting
deriving DecidableEq

/-- The scheduler of the workers with the ids `0`, …, `n`. -/
structure WorkstealingPQScheduler (n : Nat) (α : Type) where
  workQueue : Fin (n + 1) → ThreadWorkQueue α
  halting : Bool
  worker : Fin (n + 1) → Place n
  /-- The nodes that were passed to `enqueue`. -/
  enqueued : List α
  /-- The nodes that `dequeue` returned. -/
  returned : List α

namespace WorkstealingPQScheduler

variable {n : Nat} {α : Type}

/-- `others` before the shuffle: `0`, …, `size - 2`, where `size - 1` stands
in the place of the worker's own id. -/
def others (w : Fin (n + 1)) : List (Fin (n + 1)) :=
  ((List.finRange n).map Fin.castSucc).set w (Fin.last n)

def setQueue (s : WorkstealingPQScheduler n α) (w : Fin (n + 1))
    (q : ThreadWorkQueue α) : WorkstealingPQScheduler n α :=
  { s with workQueue := Function.update s.workQueue w q }

def setWorker (s : WorkstealingPQScheduler n α) (w : Fin (n + 1))
    (p : Place n) : WorkstealingPQScheduler n α :=
  { s with worker := Function.update s.worker w p }

/-- `dequeue` returns the node `x` to the worker `w`. -/
def give (s : WorkstealingPQScheduler n α) (w : Fin (n + 1)) (x : α) :
    WorkstealingPQScheduler n α :=
  { s.setWorker w .running with returned := x :: s.returned }

/-- No worker holds `mutex`. -/
def MutexFree (s : WorkstealingPQScheduler n α) : Prop :=
  ∀ w others, s.worker w ≠ .scanning others

/-- `cv.notify_one()` may wake `v`: a blocked worker, or none when no worker
is blocked. -/
def MayNotify (s : WorkstealingPQScheduler n α) :
    Option (Fin (n + 1)) → Prop
  | some v => s.worker v = .waiting
  | none => ∀ v, s.worker v ≠ .waiting

/-- The woken worker needs `mutex` again. -/
def notifyOne (s : WorkstealingPQScheduler n α) :
    Option (Fin (n + 1)) → WorkstealingPQScheduler n α
  | some v => s.setWorker v .locking
  | none => s

/-- `cv.notify_all()`. -/
def notifyAll (s : WorkstealingPQScheduler n α) :
    WorkstealingPQScheduler n α :=
  { s with worker := fun w =>
      if s.worker w = .waiting then .locking else s.worker w }

/-- `enqueue` of the worker `w` under the lock of its queue. -/
def enqueue (depth : α → Int) (s : WorkstealingPQScheduler n α)
    (w : Fin (n + 1)) (x : α) (v : Option (Fin (n + 1))) :
    WorkstealingPQScheduler n α :=
  { s.setQueue w ((s.workQueue w).push depth x) with
    enqueued := x :: s.enqueued }.notifyOne v

/-- The scheduler when the workers start: the decision tree has enqueued its
root from the main thread, whose `thread_id` is `0`. -/
def initial (n : Nat) (depth : α → Int) (root : α) :
    WorkstealingPQScheduler n α where
  workQueue := Function.update (fun _ => OrderedMap.empty) 0
    (ThreadWorkQueue.push depth OrderedMap.empty root)
  halting := false
  worker := fun _ => .running
  enqueued := [root]
  returned := []

/-- One mutex-protected section of one worker. -/
inductive Step (depth : α → Int) :
    WorkstealingPQScheduler n α → WorkstealingPQScheduler n α → Prop
  /-- `enqueue`. -/
  | enqueue {s} (w : Fin (n + 1)) (x : α) (v : Option (Fin (n + 1)))
      (hrunning : s.worker w = .running) (hnotify : s.MayNotify v) :
      Step depth s (s.enqueue depth w x v)
  /-- `dequeue`, own lock: the scheduler is halting. -/
  | ownHalting {s} (w : Fin (n + 1)) (hrunning : s.worker w = .running)
      (hhalting : s.halting) : Step depth s s
  /-- `dequeue`, own lock: the own queue has a node. -/
  | ownPop {s} (w : Fin (n + 1)) (x : α) (q : ThreadWorkQueue α)
      (hrunning : s.worker w = .running) (hhalting : ¬ s.halting)
      (hpop : (s.workQueue w).pop = some (x, q)) :
      Step depth s ((s.setQueue w q).give w x)
  /-- `dequeue`, own lock: the own queue is empty. -/
  | ownEmpty {s} (w : Fin (n + 1)) (hrunning : s.worker w = .running)
      (hhalting : ¬ s.halting) (hempty : (s.workQueue w).isEmpty) :
      Step depth s (s.setWorker w .locking)
  /-- Head of the loop under `mutex`: the scheduler is halting. -/
  | bigHalting {s} (w : Fin (n + 1)) (hlocking : s.worker w = .locking)
      (hfree : s.MutexFree) (hhalting : s.halting) :
      Step depth s (s.setWorker w .running)
  /-- Head of the loop under `mutex`: the own queue has a node. -/
  | bigPop {s} (w : Fin (n + 1)) (x : α) (q : ThreadWorkQueue α)
      (hlocking : s.worker w = .locking) (hfree : s.MutexFree)
      (hhalting : ¬ s.halting) (hpop : (s.workQueue w).pop = some (x, q)) :
      Step depth s ((s.setQueue w q).give w x)
  /-- Head of the loop under `mutex`: the others are shuffled. -/
  | shuffle {s} (w : Fin (n + 1)) (order : List (Fin (n + 1)))
      (hlocking : s.worker w = .locking) (hfree : s.MutexFree)
      (hhalting : ¬ s.halting) (hempty : (s.workQueue w).isEmpty)
      (horder : order.Perm (others w)) :
      Step depth s (s.setWorker w (.scanning order))
  /-- The queue of `other` is empty. -/
  | stealNone {s} (w other : Fin (n + 1)) (rest : List (Fin (n + 1)))
      (q q' : ThreadWorkQueue α)
      (hscanning : s.worker w = .scanning (other :: rest))
      (hsteal : (s.workQueue w).steal (s.workQueue other) = (false, q, q')) :
      Step depth s (((s.setQueue w q).setQueue other q').setWorker w
        (.scanning rest))
  /-- Nodes of `other` are stolen, and one of them is returned. -/
  | steal {s} (w other : Fin (n + 1)) (rest : List (Fin (n + 1)))
      (q q' q'' : ThreadWorkQueue α) (x : α)
      (hscanning : s.worker w = .scanning (other :: rest))
      (hsteal : (s.workQueue w).steal (s.workQueue other) = (true, q, q'))
      (hpop : q.pop = some (x, q'')) :
      Step depth s (((s.setQueue w q'').setQueue other q').give w x)
  /-- No queue is left: `cv.wait` releases `mutex` and blocks. -/
  | wait {s} (w : Fin (n + 1)) (hscanning : s.worker w = .scanning []) :
      Step depth s (s.setWorker w .waiting)
  /-- `cv.wait` wakes up without a notification. -/
  | spurious {s} (w : Fin (n + 1)) (hwaiting : s.worker w = .waiting) :
      Step depth s (s.setWorker w .locking)
  /-- `halt`. -/
  | halt {s} (w : Fin (n + 1)) (hrunning : s.worker w = .running)
      (hfree : s.MutexFree) :
      Step depth s { s.notifyAll with halting := true }

/-- The states of all runs. -/
inductive Reachable (depth : α → Int) (root : α) :
    WorkstealingPQScheduler n α → Prop
  | initial : Reachable depth root (initial n depth root)
  | step {s s'} : Reachable depth root s → Step depth s s' →
      Reachable depth root s'

/-! ## The nodes in the queues -/

/-- The nodes of all queues. -/
def queued (s : WorkstealingPQScheduler n α) : Multiset α :=
  ∑ i, ((s.workQueue i).contents : Multiset α)

@[simp] theorem queued_give (s : WorkstealingPQScheduler n α)
    (w : Fin (n + 1)) (x : α) : (s.give w x).queued = s.queued := rfl

/-- The scheduler as its users see it. -/
def pool (s : WorkstealingPQScheduler n α) : Pool α :=
  ⟨s.queued, s.enqueued, s.returned⟩

theorem mem_queued {s : WorkstealingPQScheduler n α} {x : α} :
    x ∈ s.queued ↔ ∃ i, x ∈ (s.workQueue i).contents := by
  simp [queued, Multiset.mem_sum]

/-- The nodes of one queue and those of the others. -/
theorem queued_eq_add (s : WorkstealingPQScheduler n α) (w : Fin (n + 1)) :
    s.queued = ((s.workQueue w).contents : Multiset α) +
      ∑ i ∈ Finset.univ.erase w, ((s.workQueue i).contents : Multiset α) :=
  (Finset.add_sum_erase Finset.univ _ (Finset.mem_univ w)).symm

theorem queued_setQueue (s : WorkstealingPQScheduler n α) (w : Fin (n + 1))
    (q : ThreadWorkQueue α) :
    (s.setQueue w q).queued + ((s.workQueue w).contents : Multiset α) =
      s.queued + (q.contents : Multiset α) := by
  have hw : (s.setQueue w q).workQueue w = q := Function.update_self ..
  have hrest : ∑ i ∈ Finset.univ.erase w,
      (((s.setQueue w q).workQueue i).contents : Multiset α) =
      ∑ i ∈ Finset.univ.erase w, ((s.workQueue i).contents : Multiset α) := by
    apply Finset.sum_congr rfl
    intro i hi
    have hne : i ≠ w := Finset.ne_of_mem_erase hi
    show ((Function.update s.workQueue w q i).contents : Multiset α) = _
    rw [Function.update_of_ne hne]
  rw [queued_eq_add s w, queued_eq_add (s.setQueue w q) w, hw, hrest]
  abel

theorem setQueue_self (s : WorkstealingPQScheduler n α) (w : Fin (n + 1)) :
    s.setQueue w (s.workQueue w) = s := by
  rw [setQueue, Function.update_eq_self]

theorem queued_push (depth : α → Int) (s : WorkstealingPQScheduler n α)
    (w : Fin (n + 1)) (x : α) :
    (s.setQueue w ((s.workQueue w).push depth x)).queued = x ::ₘ s.queued := by
  have hqueued := queued_setQueue s w ((s.workQueue w).push depth x)
  have hpush := Multiset.coe_eq_coe.mpr
    (ThreadWorkQueue.contents_push depth (s.workQueue w) x)
  rw [hpush, ← Multiset.cons_coe, Multiset.add_cons,
    ← Multiset.cons_add] at hqueued
  exact add_right_cancel hqueued

theorem queued_pop {s : WorkstealingPQScheduler n α} {w : Fin (n + 1)} {x : α}
    {q : ThreadWorkQueue α} (hpop : (s.workQueue w).pop = some (x, q)) :
    x ::ₘ (s.setQueue w q).queued = s.queued := by
  have hqueued := queued_setQueue s w q
  have hcontents := Multiset.coe_eq_coe.mpr
    (ThreadWorkQueue.contents_pop hpop)
  rw [hcontents, ← Multiset.cons_coe, Multiset.add_cons,
    ← Multiset.cons_add] at hqueued
  exact add_right_cancel hqueued

/-- A theft and the `pop` after it take one node from the two queues. -/
theorem queued_steal {s : WorkstealingPQScheduler n α} {w other : Fin (n + 1)}
    {q q' q'' : ThreadWorkQueue α} {x : α} (hne : other ≠ w)
    (hsteal : (s.workQueue w).steal (s.workQueue other) = (true, q, q'))
    (hpop : q.pop = some (x, q'')) :
    x ::ₘ ((s.setQueue w q'').setQueue other q').queued = s.queued := by
  have hother : (s.setQueue w q'').workQueue other = s.workQueue other :=
    Function.update_of_ne hne ..
  have hqueued := queued_setQueue s w q''
  have hqueued' := queued_setQueue (s.setQueue w q'') other q'
  rw [hother] at hqueued'
  have hstolen : (q.contents : Multiset α) + q'.contents =
      (s.workQueue w).contents + (s.workQueue other).contents :=
    Multiset.coe_eq_coe.mpr (ThreadWorkQueue.contents_steal hsteal)
  have hcontents : (q.contents : Multiset α) = x ::ₘ q''.contents :=
    Multiset.coe_eq_coe.mpr (ThreadWorkQueue.contents_pop hpop)
  apply add_right_cancel (b := ((s.workQueue w).contents : Multiset α) +
    (s.workQueue other).contents)
  calc x ::ₘ ((s.setQueue w q'').setQueue other q').queued +
        ((s.workQueue w).contents + (s.workQueue other).contents)
      = x ::ₘ (((s.setQueue w q'').setQueue other q').queued +
          (s.workQueue other).contents + (s.workQueue w).contents) := by
        rw [Multiset.cons_add]
        congr 1
        abel
    _ = x ::ₘ ((s.setQueue w q'').queued + (s.workQueue w).contents +
          q'.contents) := by
        rw [hqueued']
        congr 1
        abel
    _ = s.queued + (x ::ₘ q''.contents + q'.contents) := by
        rw [hqueued, Multiset.cons_add, Multiset.add_cons, add_assoc]
    _ = s.queued + ((s.workQueue w).contents +
          (s.workQueue other).contents) := by
        rw [← hcontents, hstolen]

/-- The loop looks at the queues of all other workers. -/
theorem mem_others {w v : Fin (n + 1)} : v ∈ others w ↔ v ≠ w := by
  have hlen : (others w).length = n := by simp [others]
  have hget : ∀ i (hi : i < (others w).length), ((others w)[i]).val =
      if w.val = i then n else i := by
    intro i hi
    simp only [others, List.getElem_set]
    split <;> simp
  have hvn : v.val < n + 1 := v.isLt
  have hwn : w.val < n + 1 := w.isLt
  rw [List.mem_iff_getElem, ne_eq, Fin.ext_iff]
  constructor
  · rintro ⟨i, hi, rfl⟩
    rw [hget i hi]
    split <;> omega
  · intro hne
    by_cases hv : v.val < n
    · refine ⟨v.val, by omega, Fin.ext ?_⟩
      rw [hget v.val (by omega), if_neg (by omega)]
    · refine ⟨w.val, by omega, Fin.ext ?_⟩
      rw [hget w.val (by omega), if_pos rfl]
      omega

/-! ## The invariant -/

/-- What holds between two steps. -/
structure Inv (s : WorkstealingPQScheduler n α) : Prop where
  accounted : s.pool.Accounted
  noEmptyDepth : ∀ i, (s.workQueue i).NoEmptyDepth
  /-- A worker that looks for a node has none of its own. -/
  parked : ∀ w, s.worker w ≠ .running → (s.workQueue w).isEmpty
  /-- The loop does not come to the worker's own queue. -/
  away : ∀ w order, s.worker w = .scanning order → w ∉ order

theorem inv_initial (depth : α → Int) (root : α) :
    (initial n depth root).Inv := by
  have hqueue : ∀ i, (initial n depth root).workQueue i =
      if i = 0 then ThreadWorkQueue.push depth OrderedMap.empty root
      else OrderedMap.empty := by
    intro i
    simp [initial, Function.update_apply]
  constructor
  · have hempty : ∀ i ∈ Finset.univ.erase (0 : Fin (n + 1)),
        (((initial n depth root).workQueue i).contents : Multiset α) = 0 := by
      intro i hi
      rw [hqueue, if_neg (Finset.ne_of_mem_erase hi)]
      rfl
    show (([] : List α) : Multiset α) + (initial n depth root).queued = {root}
    rw [queued_eq_add _ 0, Finset.sum_eq_zero hempty, hqueue, if_pos rfl]
    rfl
  · intro i
    rw [hqueue]
    split
    · exact ThreadWorkQueue.noEmptyDepth_push depth
        (OrderedMap.all_empty _) root
    · exact OrderedMap.all_empty _
  · intro w hw
    exact absurd rfl hw
  · intro w order hw
    cases hw

/-- A worker moves on and no queue changes. -/
theorem Inv.setWorker {s : WorkstealingPQScheduler n α} (h : s.Inv)
    (w : Fin (n + 1)) {p : Place n}
    (hempty : p ≠ .running → (s.workQueue w).isEmpty)
    (haway : ∀ order, p = .scanning order → w ∉ order) :
    (s.setWorker w p).Inv := by
  have hworker : ∀ v, (s.setWorker w p).worker v =
      if v = w then p else s.worker v := by
    intro v
    simp [WorkstealingPQScheduler.setWorker, Function.update_apply]
  constructor
  · exact h.accounted
  · exact h.noEmptyDepth
  · intro v hv
    rw [hworker] at hv
    split at hv
    · subst v
      exact hempty hv
    · exact h.parked v hv
  · intro v order hv
    rw [hworker] at hv
    split at hv
    · subst v
      exact haway order hv
    · exact h.away v order hv

theorem Inv.notifyOne {s : WorkstealingPQScheduler n α} (h : s.Inv)
    {v : Option (Fin (n + 1))} (hv : s.MayNotify v) : (s.notifyOne v).Inv := by
  cases v with
  | none => exact h
  | some v =>
    apply h.setWorker
    · intro _
      apply h.parked
      rw [show s.worker v = .waiting from hv]
      exact nofun
    · intro order horder
      cases horder

theorem Inv.notifyAll {s : WorkstealingPQScheduler n α} (h : s.Inv) :
    s.notifyAll.Inv := by
  constructor
  · exact h.accounted
  · exact h.noEmptyDepth
  · intro w hw
    apply h.parked
    intro hrunning
    simp [WorkstealingPQScheduler.notifyAll, hrunning] at hw
  · intro w order hw
    simp only [WorkstealingPQScheduler.notifyAll] at hw
    split at hw
    · cases hw
    · exact h.away w order hw

/-- Queues of running workers change as a step of the pool. -/
theorem Inv.of_frame {s s' : WorkstealingPQScheduler n α} (h : s.Inv)
    (hpool : Pool.Step s.pool s'.pool)
    (hempty : ∀ i, (s'.workQueue i).NoEmptyDepth)
    (hframe : ∀ v, s'.worker v ≠ .running →
      s'.worker v = s.worker v ∧ s'.workQueue v = s.workQueue v) :
    s'.Inv := by
  constructor
  · exact hpool.accounted h.accounted
  · exact hempty
  · intro v hv
    obtain ⟨hworker, hqueue⟩ := hframe v hv
    rw [hqueue]
    rw [hworker] at hv
    exact h.parked v hv
  · intro v order hv
    have hne : s'.worker v ≠ .running := by
      rw [hv]
      exact nofun
    rw [(hframe v hne).1] at hv
    exact h.away v order hv

theorem noEmptyDepth_setQueue {s : WorkstealingPQScheduler n α}
    (h : ∀ i, (s.workQueue i).NoEmptyDepth) (w : Fin (n + 1))
    {q : ThreadWorkQueue α} (hq : q.NoEmptyDepth) (i : Fin (n + 1)) :
    ((s.setQueue w q).workQueue i).NoEmptyDepth := by
  show ThreadWorkQueue.NoEmptyDepth (Function.update s.workQueue w q i)
  rw [Function.update_apply]
  split
  · exact hq
  · exact h i

theorem pool_enqueue (depth : α → Int) (s : WorkstealingPQScheduler n α)
    (w : Fin (n + 1)) (x : α) (v : Option (Fin (n + 1))) :
    Pool.Step s.pool (s.enqueue depth w x v).pool := by
  have hnotify : ∀ s' : WorkstealingPQScheduler n α,
      (s'.notifyOne v).pool = s'.pool := by
    intro s'
    cases v <;> rfl
  rw [enqueue, hnotify]
  have hput := Pool.Step.put s.pool x
  rw [show s.pool.queued = s.queued from rfl, ← queued_push depth s w x] at hput
  exact hput

/-- Taking `x` from the queues is a step of the pool. -/
theorem pool_give {s s' : WorkstealingPQScheduler n α} (w : Fin (n + 1))
    {x : α} (hqueued : x ::ₘ s'.queued = s.queued)
    (henqueued : s'.enqueued = s.enqueued)
    (hreturned : s'.returned = s.returned) :
    Pool.Step s.pool (s'.give w x).pool := by
  have htake := Pool.Step.take x s'.queued s'.enqueued s'.returned
  rw [hqueued, henqueued, hreturned] at htake
  rw [pool, pool, queued_give, show (s'.give w x).enqueued = s.enqueued from
    henqueued, show (s'.give w x).returned = x :: s.returned from
    congrArg (x :: ·) hreturned]
  exact htake

theorem inv_enqueue (depth : α → Int) {s : WorkstealingPQScheduler n α}
    (h : s.Inv) {w : Fin (n + 1)} (x : α) {v : Option (Fin (n + 1))}
    (hrunning : s.worker w = .running) (hnotify : s.MayNotify v) :
    (s.enqueue depth w x v).Inv := by
  refine Inv.notifyOne (v := v) ?_ hnotify
  refine h.of_frame (pool_enqueue depth s w x none) ?_ ?_
  · exact noEmptyDepth_setQueue h.noEmptyDepth w
      (ThreadWorkQueue.noEmptyDepth_push depth (h.noEmptyDepth w) x)
  · intro u hu
    have hne : u ≠ w := by
      intro heq
      exact hu (heq ▸ hrunning)
    exact ⟨rfl, Function.update_of_ne hne ..⟩

/-- A running worker takes a node of its own queue. -/
theorem inv_pop {s : WorkstealingPQScheduler n α} (h : s.Inv)
    {w : Fin (n + 1)} {x : α} {q : ThreadWorkQueue α}
    (hpop : (s.workQueue w).pop = some (x, q)) :
    ((s.setQueue w q).give w x).Inv := by
  refine h.of_frame (pool_give w (queued_pop hpop) rfl rfl) ?_ ?_
  · exact noEmptyDepth_setQueue h.noEmptyDepth w
      (ThreadWorkQueue.noEmptyDepth_pop hpop (h.noEmptyDepth w))
  · intro u hu
    have hne : u ≠ w := by
      intro heq
      apply hu
      rw [heq]
      exact Function.update_self ..
    exact ⟨Function.update_of_ne hne .., Function.update_of_ne hne ..⟩

/-- A worker steals from another one and takes one of the stolen nodes. -/
theorem inv_steal {s : WorkstealingPQScheduler n α} (h : s.Inv)
    {w other : Fin (n + 1)} {q q' q'' : ThreadWorkQueue α} {x : α}
    (hne : other ≠ w) (hrunning : s.worker other = .running)
    (hsteal : (s.workQueue w).steal (s.workQueue other) = (true, q, q'))
    (hpop : q.pop = some (x, q'')) :
    (((s.setQueue w q'').setQueue other q').give w x).Inv := by
  obtain ⟨hq, hq'⟩ := ThreadWorkQueue.noEmptyDepth_steal hsteal
    (h.noEmptyDepth w) (h.noEmptyDepth other)
  refine h.of_frame (pool_give w (queued_steal hne hsteal hpop) rfl rfl) ?_ ?_
  · exact noEmptyDepth_setQueue (noEmptyDepth_setQueue h.noEmptyDepth w
      (ThreadWorkQueue.noEmptyDepth_pop hpop hq)) other hq'
  · intro u hu
    have huw : u ≠ w := by
      intro heq
      apply hu
      rw [heq]
      exact Function.update_self ..
    have hworker : ((((s.setQueue w q'').setQueue other q').give w x).worker u) =
        s.worker u := Function.update_of_ne huw ..
    have huo : u ≠ other := by
      intro heq
      apply hu
      rw [hworker, heq, hrunning]
    refine ⟨hworker, ?_⟩
    show Function.update (Function.update s.workQueue w q'') other q' u = _
    rw [Function.update_of_ne huo, Function.update_of_ne huw]

/-- A queue that can be stolen from belongs to a running worker. -/
theorem Inv.running_of_steal {s : WorkstealingPQScheduler n α} (h : s.Inv)
    {w other : Fin (n + 1)} {q q' : ThreadWorkQueue α}
    (hsteal : (s.workQueue w).steal (s.workQueue other) = (true, q, q')) :
    s.worker other = .running := by
  by_contra hother
  have hempty := h.parked other hother
  rw [ThreadWorkQueue.steal, OrderedMap.first?_eq_none.mpr hempty] at hsteal
  cases hsteal

/-- The loop looks at the queue of another worker. -/
theorem Inv.other_ne {s : WorkstealingPQScheduler n α} (h : s.Inv)
    {w other : Fin (n + 1)} {rest : List (Fin (n + 1))}
    (hscanning : s.worker w = .scanning (other :: rest)) : other ≠ w := by
  intro heq
  exact h.away w _ hscanning (heq ▸ List.mem_cons_self)

theorem Step.inv {depth : α → Int} {s s' : WorkstealingPQScheduler n α}
    (hstep : Step depth s s') (h : s.Inv) : s'.Inv := by
  cases hstep with
  | enqueue w x v hrunning hnotify => exact inv_enqueue depth h x hrunning hnotify
  | ownHalting => exact h
  | ownPop w x q hrunning hhalting hpop => exact inv_pop h hpop
  | ownEmpty w hrunning hhalting hempty =>
    exact h.setWorker w (fun _ => hempty) (fun order horder => by cases horder)
  | bigHalting w hlocking hfree hhalting =>
    exact h.setWorker w (fun hne => absurd rfl hne)
      (fun order horder => by cases horder)
  | bigPop w x q hlocking hfree hhalting hpop => exact inv_pop h hpop
  | shuffle w order hlocking hfree hhalting hempty horder =>
    apply h.setWorker w (fun _ => hempty)
    intro order' heq hmem
    cases heq
    exact mem_others.mp (horder.mem_iff.mp hmem) rfl
  | stealNone w other rest q q' hscanning hsteal =>
    obtain ⟨_, rfl, rfl⟩ := ThreadWorkQueue.steal_false hsteal
    rw [setQueue_self, setQueue_self]
    apply h.setWorker w
    · intro _
      apply h.parked
      rw [hscanning]
      exact nofun
    · intro order heq hmem
      cases heq
      exact h.away w _ hscanning (List.mem_cons_of_mem _ hmem)
  | steal w other rest q q' q'' x hscanning hsteal hpop =>
    exact inv_steal h (h.other_ne hscanning) (h.running_of_steal hsteal)
      hsteal hpop
  | wait w hscanning =>
    apply h.setWorker w
    · intro _
      apply h.parked
      rw [hscanning]
      exact nofun
    · intro order horder
      cases horder
  | spurious w hwaiting =>
    apply h.setWorker w
    · intro _
      apply h.parked
      rw [hwaiting]
      exact nofun
    · intro order horder
      cases horder
  | halt w hrunning hfree =>
    obtain ⟨haccounted, hempty, hparked, haway⟩ := h.notifyAll
    exact ⟨haccounted, hempty, hparked, haway⟩

theorem Reachable.inv {depth : α → Int} {root : α}
    {s : WorkstealingPQScheduler n α} (h : Reachable depth root s) :
    s.Inv := by
  induction h with
  | initial => exact inv_initial depth root
  | step _ hstep ih => exact hstep.inv ih

/-- To its users each step of the scheduler is a step of the pool, or none. -/
theorem Step.pool {depth : α → Int} {s s' : WorkstealingPQScheduler n α}
    (hstep : Step depth s s') (h : s.Inv) :
    s'.pool = s.pool ∨ Pool.Step s.pool s'.pool := by
  cases hstep with
  | enqueue w x v => exact .inr (pool_enqueue depth s w x v)
  | ownPop w x q hrunning hhalting hpop =>
    exact .inr (pool_give w (queued_pop hpop) rfl rfl)
  | bigPop w x q hlocking hfree hhalting hpop =>
    exact .inr (pool_give w (queued_pop hpop) rfl rfl)
  | stealNone w other rest q q' hscanning hsteal =>
    obtain ⟨_, rfl, rfl⟩ := ThreadWorkQueue.steal_false hsteal
    rw [setQueue_self, setQueue_self]
    exact .inl rfl
  | steal w other rest q q' q'' x hscanning hsteal hpop =>
    exact .inr (pool_give w (queued_steal (h.other_ne hscanning) hsteal hpop)
      rfl rfl)
  | ownHalting => exact .inl rfl
  | ownEmpty => exact .inl rfl
  | bigHalting => exact .inl rfl
  | shuffle => exact .inl rfl
  | wait => exact .inl rfl
  | spurious => exact .inl rfl
  | halt => exact .inl rfl

/-! ## Nothing is lost or duplicated -/

/-- The contract of the scheduler between two steps.  `construct_sibling`
makes a new node for each call of `enqueue`, and then `enqueued` has no
duplicates. -/
structure LosesNothing (s : WorkstealingPQScheduler n α) : Prop where
  accounted : s.pool.Accounted
  /-- No node is returned twice. -/
  returnedOnce : s.enqueued.Nodup → s.returned.Nodup
  /-- A node that was not returned is in exactly one queue, once. -/
  inOneQueue : s.enqueued.Nodup → ∀ x ∈ s.enqueued, x ∉ s.returned →
    ∃! i, x ∈ (s.workQueue i).contents
  queuedOnce : s.enqueued.Nodup → ∀ i, (s.workQueue i).contents.Nodup
  noEmptyDepth : ∀ i, (s.workQueue i).NoEmptyDepth
  /-- No node is left behind when all workers are blocked. -/
  allBlocked : (∀ w, s.worker w = .waiting) → ∀ i, (s.workQueue i).isEmpty

/-- In a queue content without duplicates no node is in two queues. -/
theorem eq_of_mem_contents {s : WorkstealingPQScheduler n α}
    (h : s.queued.Nodup) {x : α} {i j : Fin (n + 1)}
    (hi : x ∈ (s.workQueue i).contents) (hj : x ∈ (s.workQueue j).contents) :
    j = i := by
  by_contra hne
  rw [queued_eq_add s i, Multiset.nodup_add] at h
  refine Multiset.disjoint_left.mp h.2.2 (Multiset.mem_coe.mpr hi) ?_
  rw [Multiset.mem_sum]
  exact ⟨j, Finset.mem_erase.mpr ⟨hne, Finset.mem_univ j⟩,
    Multiset.mem_coe.mpr hj⟩

theorem Inv.losesNothing {s : WorkstealingPQScheduler n α} (h : s.Inv) :
    s.LosesNothing := by
  have haccounted : (s.returned : Multiset α) + s.queued =
      (s.enqueued : Multiset α) := h.accounted
  have hnodup : s.enqueued.Nodup →
      s.returned.Nodup ∧ s.queued.Nodup := by
    intro hn
    rw [← Multiset.coe_nodup, ← haccounted, Multiset.nodup_add] at hn
    exact ⟨Multiset.coe_nodup.mp hn.1, hn.2.1⟩
  constructor
  · exact h.accounted
  · exact fun hn => (hnodup hn).1
  · intro hn x hx hreturned
    have hmem : x ∈ (s.returned : Multiset α) + s.queued := by
      rw [haccounted]
      exact Multiset.mem_coe.mpr hx
    rcases Multiset.mem_add.mp hmem with hret | hqueued
    · exact absurd (Multiset.mem_coe.mp hret) hreturned
    · obtain ⟨i, hi⟩ := mem_queued.mp hqueued
      exact ⟨i, hi, fun j hj => eq_of_mem_contents (hnodup hn).2 hi hj⟩
  · intro hn i
    have hqueued := (hnodup hn).2
    rw [queued_eq_add s i, Multiset.nodup_add] at hqueued
    exact Multiset.coe_nodup.mp hqueued.1
  · exact h.noEmptyDepth
  · intro hall i
    apply h.parked
    rw [hall i]
    exact nofun

/-- The assertions of `pop` and `steal` hold: a queue that is not empty has a
node, `steal` works for an empty queue of another worker, and after a theft
there is a node. -/
theorem assertions_of_reachable {depth : α → Int} {root : α}
    {s : WorkstealingPQScheduler n α} (hr : Reachable depth root s)
    (w : Fin (n + 1)) :
    (¬ (s.workQueue w).isEmpty → ∃ x q, (s.workQueue w).pop = some (x, q)) ∧
      ∀ other rest, s.worker w = .scanning (other :: rest) →
        other ≠ w ∧ (s.workQueue w).isEmpty ∧
        ∀ q q', (s.workQueue w).steal (s.workQueue other) = (true, q, q') →
          ∃ x q'', q.pop = some (x, q'') := by
  have h := hr.inv
  refine ⟨ThreadWorkQueue.exists_pop (h.noEmptyDepth w), ?_⟩
  intro other rest hscanning
  refine ⟨h.other_ne hscanning, h.parked w (by rw [hscanning]; exact nofun), ?_⟩
  intro q q' hsteal
  apply ThreadWorkQueue.exists_pop (ThreadWorkQueue.noEmptyDepth_steal hsteal
    (h.noEmptyDepth w) (h.noEmptyDepth other)).1
  exact ThreadWorkQueue.not_isEmpty_steal hsteal

/-- Worker `1` is about to steal the root from worker `0`. -/
theorem exists_scanning : ∃ s : WorkstealingPQScheduler 1 Int,
    s.worker 1 = .scanning [0] ∧ Reachable id (-1) s :=
  have start : Reachable id (-1 : Int) (initial 1 id (-1)) := .initial
  have locking := start.step (.ownEmpty 1 rfl (by decide) (by decide))
  ⟨_, rfl, locking.step (.shuffle 1 [0] rfl
    (fun w order => match w with | 0 => nofun | 1 => nofun) (by decide) (by decide) (by decide))⟩

theorem assertions_scanning : ∃ s : WorkstealingPQScheduler 1 Int,
    s.worker 1 = .scanning [0] ∧ (s.workQueue 1).isEmpty := by
  obtain ⟨s, hs, h⟩ := exists_scanning
  exact ⟨s, hs, ((assertions_of_reachable h 1).2 0 [] hs).2.1⟩

/-- To its users a run of the scheduler is one of the pool. -/
theorem refinesPool_of_reachable {depth : α → Int} {root : α}
    {s : WorkstealingPQScheduler n α} (h : Reachable depth root s) :
    Relation.ReflTransGen Pool.Step ⟨{root}, [root], []⟩ s.pool := by
  induction h with
  | initial =>
    have hqueued : (initial n depth root).queued = {root} :=
      (zero_add _).symm.trans (inv_initial depth root).accounted
    rw [pool, hqueued]
    exact .refl
  | step hreach hstep ih =>
    rcases hstep.pool hreach.inv with hsame | hpool
    · rwa [hsame]
    · exact ih.tail hpool

theorem refinesPool_scanning : ∃ s : WorkstealingPQScheduler 1 Int,
    s.worker 1 = .scanning [0] ∧
      Relation.ReflTransGen Pool.Step ⟨{-1}, [-1], []⟩ s.pool := by
  obtain ⟨s, hs, h⟩ := exists_scanning
  exact ⟨s, hs, refinesPool_of_reachable h⟩

/-- The scheduler loses and duplicates no node, in any run of any number of
workers. -/
theorem losesNothing_of_reachable {depth : α → Int} {root : α}
    {s : WorkstealingPQScheduler n α} (h : Reachable depth root s) :
    s.LosesNothing :=
  h.inv.losesNothing

/-- Worker `1` steals the root from worker `0` and gets it. -/
theorem losesNothing_stolenRoot :
    ∃ s : WorkstealingPQScheduler 1 Int, s.returned = [-1] ∧
      s.LosesNothing := by
  have start : Reachable id (-1 : Int) (initial 1 id (-1)) := .initial
  have locking := start.step (.ownEmpty 1 rfl (by decide) (by decide))
  have scanning := locking.step (.shuffle 1 [0] rfl
    (fun w order => match w with | 0 => nofun | 1 => nofun) (by decide) (by decide) (by decide))
  have stolen := scanning.step (.steal 1 0 [] _ _ _ (-1) rfl rfl rfl)
  exact ⟨_, rfl, losesNothing_of_reachable stolen⟩

end WorkstealingPQScheduler

end ViEqui
