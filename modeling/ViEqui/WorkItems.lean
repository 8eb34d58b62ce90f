import ViEqui.WorkStealing

/-!
# Counting the work items

The drivers `run_rfsc_sequential` and `run_rfsc_parallel` stop by counting
work items.  The sequential one adds `tasks_created` of the trace builder to
`tasks_left` after each execution; the parallel one counts in
`outstanding_jobs` of the scheduler.

* `DecisionNode`: the decision tree, and what `cancel_replay` prunes in it.
* `SequentialDriver`, `ParallelDriver`: the loops of the two drivers as steps.
  An execution of a work item is any sequence of calls of `construct_sibling`
  and `cancel_replay`.  The queue of the scheduler is the bag of a `Pool`.
* `balance_of_reachable`: what the counters hold in every reachable state.
  `discarded` counts the pruned items that `reset` threw away.
-/

namespace ViEqui

/-! ## Decisions -/

/-- A node of the decision tree.  `id` stands for the pointer of a child. -/
inductive DecisionNode where
  | root
  | child (parent : DecisionNode) (id : Nat)
deriving DecidableEq

namespace DecisionNode

/-- `depth`. -/
def depth : DecisionNode → Int
  | root => -1
  | child parent _ => parent.depth + 1

/-- `find_ancestor`: the ancestor of depth `wanted`, or the node itself. -/
def findAncestor (wanted : Int) : DecisionNode → DecisionNode
  | root => root
  | child parent id =>
    if (child parent id).depth = wanted then child parent id
    else findAncestor wanted parent

/-- `is_pruned`: the node or an ancestor below the root is in a pruned
subtree. -/
def isPruned (pruned : List DecisionNode) : DecisionNode → Bool
  | root => false
  | child parent id =>
    pruned.contains (child parent id) || isPruned pruned parent

/-- `cancel_replay`: the decision that is pruned, if any.  `depths` holds the
decision depth of each event of the prefix.  The greatest depth of the events
so far is used as an index into the prefix, as in the source. -/
def cancelReplay (item : DecisionNode) (depths : List Int)
    (prefixIdx : Nat) : Option DecisionNode :=
  let blame := (depths.take (prefixIdx + 1)).foldl max (-1)
  if blame = -1 then none
  else
    match depths[blame.toNat]? with
    | some depth => if depth = -1 then none else some (item.findAncestor depth)
    | none => none

end DecisionNode

/-- Where the loop of a driver stands. -/
inductive Stage where
  /-- In `reset`. -/
  | resetting
  /-- In the execution of a work item, or in `compute_prefixes` after it. -/
  | running (item : DecisionNode)
  /-- At the loop condition. -/
  | testing
  /-- After the loop. -/
  | ended
deriving DecidableEq

/-! ## The sequential driver -/

/-- `run_rfsc_sequential` with its trace builder and its scheduler. -/
structure SequentialDriver where
  queue : Multiset DecisionNode
  /-- The nodes whose `pruned_subtree` is set. -/
  pruned : List DecisionNode
  tasksCreated : Int
  tasksLeft : Int
  stage : Stage
  /-- The pruned items that `reset` has taken from the queue. -/
  discarded : Nat

namespace SequentialDriver

/-- Before the first round: the queue holds the root. -/
def initial : SequentialDriver where
  queue := {.root}
  pruned := []
  tasksCreated := 0
  tasksLeft := 1
  stage := .resetting
  discarded := 0

/-- A step of the driver.  `get_next_work_task` blocks when the queue is
empty: then there is no step. -/
inductive Step : SequentialDriver → SequentialDriver → Prop
  /-- `reset` throws a pruned item away. -/
  | discard {s} (x : DecisionNode) (q : Multiset DecisionNode)
      (hstage : s.stage = .resetting) (hqueue : s.queue = x ::ₘ q)
      (hpruned : x.isPruned s.pruned) :
      Step s { s with
        queue := q
        tasksCreated := s.tasksCreated - 1
        discarded := s.discarded + 1 }
  /-- `reset` prepares the replay of an item. -/
  | start {s} (x : DecisionNode) (q : Multiset DecisionNode)
      (hstage : s.stage = .resetting) (hqueue : s.queue = x ::ₘ q)
      (hpruned : ¬ x.isPruned s.pruned) :
      Step s { s with queue := q, tasksCreated := 0, stage := .running x }
  /-- `cancel_replay` prunes a decision. -/
  | cancel {s} (item d : DecisionNode) (depths : List Int) (prefixIdx : Nat)
      (hstage : s.stage = .running item)
      (hcancel : item.cancelReplay depths prefixIdx = some d) :
      Step s { s with pruned := d :: s.pruned }
  /-- `compute_prefixes` constructs a sibling. -/
  | sibling {s} (item parent : DecisionNode) (id : Nat)
      (hstage : s.stage = .running item) :
      Step s { s with
        queue := .child parent id ::ₘ s.queue
        tasksCreated := s.tasksCreated + 1 }
  /-- The execution and `compute_prefixes` are over. -/
  | finish {s} (item : DecisionNode) (hstage : s.stage = .running item) :
      Step s { s with
        tasksLeft := s.tasksLeft - 1 + s.tasksCreated
        stage := .testing }
  /-- `handle_trace` asks to stop. -/
  | stop {s} (item : DecisionNode) (hstage : s.stage = .running item) :
      Step s { s with
        tasksLeft := s.tasksLeft - 1 + s.tasksCreated
        stage := .ended }
  /-- `while (tasks_left)`: another round. -/
  | again {s} (hstage : s.stage = .testing) (hleft : s.tasksLeft ≠ 0) :
      Step s { s with stage := .resetting }
  /-- `while (tasks_left)`: the loop ends. -/
  | leave {s} (hstage : s.stage = .testing) (hleft : s.tasksLeft = 0) :
      Step s { s with stage := .ended }

/-- The states of all runs. -/
inductive Reachable : SequentialDriver → Prop
  | initial : Reachable initial
  | step {s s'} : Reachable s → Step s s' → Reachable s'

/-- What `tasks_left` is at each stage. -/
def Balance (s : SequentialDriver) : Prop :=
  match s.stage with
  | .resetting => s.tasksLeft = s.queue.card + s.discarded ∧ s.tasksLeft ≠ 0
  | .running _ =>
    s.tasksLeft + s.tasksCreated = s.queue.card + s.discarded + 1
  | .testing => s.tasksLeft = s.queue.card + s.discarded
  | .ended => True

theorem Step.balance {s s' : SequentialDriver} (hstep : Step s s')
    (h : s.Balance) : s'.Balance := by
  cases hstep with
  | discard x q hstage hqueue hpruned =>
    simp only [Balance, hstage, hqueue, Multiset.card_cons] at h ⊢
    push_cast at h ⊢
    omega
  | start x q hstage hqueue hpruned =>
    simp only [Balance, hstage, hqueue, Multiset.card_cons] at h ⊢
    push_cast at h
    omega
  | cancel item d depths prefixIdx hstage hcancel =>
    simpa only [Balance, hstage] using h
  | sibling item parent id hstage =>
    simp only [Balance, hstage, Multiset.card_cons] at h ⊢
    push_cast
    omega
  | finish item hstage =>
    simp only [Balance, hstage] at h ⊢
    omega
  | stop item hstage => trivial
  | again hstage hleft =>
    simp only [Balance, hstage] at h ⊢
    exact ⟨h, hleft⟩
  | leave hstage hleft => trivial

theorem balance_of_reachable {s : SequentialDriver} (h : Reachable s) :
    s.Balance := by
  induction h with
  | initial => simp [Balance, initial]
  | step _ hstep ih => exact hstep.balance ih

/-- The counter is right, and no call of `get_next_work_task` waits. -/
structure CountedRight (s : SequentialDriver) : Prop where
  counter : s.stage = .testing → s.tasksLeft = s.queue.card
  loop : s.stage = .testing → (s.tasksLeft = 0 ↔ s.queue = 0)
  dequeue : s.stage = .resetting → s.queue ≠ 0

/-- Without discards the counter is right. -/
theorem Balance.countedRight {s : SequentialDriver} (h : s.Balance)
    (hdiscarded : s.discarded = 0) : s.CountedRight := by
  have htesting : s.stage = .testing → s.tasksLeft = s.queue.card := by
    intro hstage
    simp only [Balance, hstage, hdiscarded] at h
    omega
  constructor
  · exact htesting
  · intro hstage
    rw [htesting hstage, ← Multiset.card_eq_zero]
    omega
  · intro hstage hqueue
    simp only [Balance, hstage, hdiscarded, hqueue, Multiset.card_zero] at h
    omega

/-- At the loop condition the counter is too great by the discards. -/
theorem Balance.counter_iff {s : SequentialDriver} (h : s.Balance)
    (hstage : s.stage = .testing) :
    s.tasksLeft = s.queue.card ↔ s.discarded = 0 := by
  simp only [Balance, hstage] at h
  omega

end SequentialDriver

/-! ## The parallel driver -/

/-- `run_rfsc_parallel` with its workers and the scheduler. -/
structure ParallelDriver (n : Nat) where
  queue : Multiset DecisionNode
  /-- The nodes whose `pruned_subtree` is set. -/
  pruned : List DecisionNode
  outstandingJobs : Nat
  halting : Bool
  worker : Fin n → Stage
  /-- The pruned items that `reset` has taken from the queue. -/
  discarded : Nat

namespace ParallelDriver

variable {n : Nat}

/-- Before the first round of the workers: the queue holds the root. -/
def initial (n : Nat) : ParallelDriver n where
  queue := {.root}
  pruned := []
  outstandingJobs := 1
  halting := false
  worker := fun _ => .resetting
  discarded := 0

/-- The worker `w` goes on to the stage `stage`. -/
def setWorker (s : ParallelDriver n) (w : Fin n) (stage : Stage) :
    ParallelDriver n :=
  { s with worker := Function.update s.worker w stage }

/-- One item for a worker in an execution. -/
def jobs : Stage → Nat
  | .running _ => 1
  | _ => 0

/-- The number of items being executed. -/
def executing (s : ParallelDriver n) : Nat := ∑ w, jobs (s.worker w)

/-- A step of a worker.  `dequeue` blocks on an empty queue unless the
scheduler is halting: then there is no step. -/
inductive Step : ParallelDriver n → ParallelDriver n → Prop
  /-- `reset` throws a pruned item away. -/
  | discard {s} (w : Fin n) (x : DecisionNode) (q : Multiset DecisionNode)
      (hstage : s.worker w = .resetting) (hhalting : ¬ s.halting)
      (hqueue : s.queue = x ::ₘ q) (hpruned : x.isPruned s.pruned) :
      Step s { s with queue := q, discarded := s.discarded + 1 }
  /-- `reset` prepares the replay of an item. -/
  | start {s} (w : Fin n) (x : DecisionNode) (q : Multiset DecisionNode)
      (hstage : s.worker w = .resetting) (hhalting : ¬ s.halting)
      (hqueue : s.queue = x ::ₘ q) (hpruned : ¬ x.isPruned s.pruned) :
      Step s ({ s with queue := q }.setWorker w (.running x))
  /-- `reset` returns false: `dequeue` has no item for a halting scheduler. -/
  | leave {s} (w : Fin n) (hstage : s.worker w = .resetting)
      (hhalting : s.halting) : Step s (s.setWorker w .ended)
  /-- `cancel_replay` prunes a decision. -/
  | cancel {s} (w : Fin n) (item d : DecisionNode) (depths : List Int)
      (prefixIdx : Nat) (hstage : s.worker w = .running item)
      (hcancel : item.cancelReplay depths prefixIdx = some d) :
      Step s { s with pruned := d :: s.pruned }
  /-- `compute_prefixes` constructs a sibling: `enqueue` counts it. -/
  | sibling {s} (w : Fin n) (item parent : DecisionNode) (id : Nat)
      (hstage : s.worker w = .running item) :
      Step s { s with
        queue := .child parent id ::ₘ s.queue
        outstandingJobs := s.outstandingJobs + 1 }
  /-- The end of a round under the lock of the results: `halt` is called when
  no job remains or `handle_trace` asks to stop. -/
  | finish {s} (w : Fin n) (item : DecisionNode) (stop : Bool)
      (hstage : s.worker w = .running item) :
      Step s ({ s with
        outstandingJobs := s.outstandingJobs - 1
        halting := s.halting || stop ||
          s.outstandingJobs - 1 = 0 }.setWorker w .resetting)

/-- The states of all runs. -/
inductive Reachable : ParallelDriver n → Prop
  | initial : Reachable (initial n)
  | step {s s'} : Reachable s → Step s s' → Reachable s'

theorem executing_setWorker (s : ParallelDriver n) (w : Fin n)
    (stage : Stage) :
    (s.setWorker w stage).executing + jobs (s.worker w) =
      s.executing + jobs stage := by
  have hw : (s.setWorker w stage).worker w = stage := Function.update_self ..
  have hrest : ∑ v ∈ Finset.univ.erase w, jobs ((s.setWorker w stage).worker v) =
      ∑ v ∈ Finset.univ.erase w, jobs (s.worker v) := by
    apply Finset.sum_congr rfl
    intro v hv
    show jobs (Function.update s.worker w stage v) = _
    rw [Function.update_of_ne (Finset.ne_of_mem_erase hv)]
  have hnew := Finset.add_sum_erase Finset.univ
    (fun v => jobs ((s.setWorker w stage).worker v)) (Finset.mem_univ w)
  have hold := Finset.add_sum_erase Finset.univ
    (fun v => jobs (s.worker v)) (Finset.mem_univ w)
  simp only [hw] at hnew
  unfold executing
  omega

/-- What `outstanding_jobs` is. -/
structure Balance (s : ParallelDriver n) : Prop where
  counter : s.outstandingJobs = s.queue.card + s.executing + s.discarded
  halted : s.outstandingJobs = 0 → s.halting

theorem Step.balance {s s' : ParallelDriver n} (hstep : Step s s')
    (h : s.Balance) : s'.Balance := by
  obtain ⟨hcounter, hhalted⟩ := h
  cases hstep with
  | discard w x q hstage hhalting hqueue hpruned =>
    rw [hqueue, Multiset.card_cons] at hcounter
    refine ⟨?_, hhalted⟩
    show s.outstandingJobs = q.card + s.executing + (s.discarded + 1)
    omega
  | start w x q hstage hhalting hqueue hpruned =>
    have hexec := executing_setWorker s w (.running x)
    rw [hqueue, Multiset.card_cons] at hcounter
    simp only [hstage, jobs] at hexec
    refine ⟨?_, hhalted⟩
    show s.outstandingJobs =
      q.card + (s.setWorker w (.running x)).executing + s.discarded
    omega
  | leave w hstage hhalting =>
    have hexec := executing_setWorker s w .ended
    simp only [hstage, jobs] at hexec
    refine ⟨?_, hhalted⟩
    show s.outstandingJobs =
      s.queue.card + (s.setWorker w .ended).executing + s.discarded
    omega
  | cancel => exact ⟨hcounter, hhalted⟩
  | sibling w item parent id hstage =>
    refine ⟨?_, ?_⟩
    · show s.outstandingJobs + 1 =
        (DecisionNode.child parent id ::ₘ s.queue).card + s.executing + s.discarded
      rw [Multiset.card_cons]
      omega
    · intro hzero
      exact absurd hzero (Nat.succ_ne_zero _)
  | finish w item stop hstage =>
    have hexec := executing_setWorker s w .resetting
    simp only [hstage, jobs] at hexec
    refine ⟨?_, ?_⟩
    · show s.outstandingJobs - 1 =
        s.queue.card + (s.setWorker w .resetting).executing + s.discarded
      omega
    · intro hzero
      show (s.halting || stop || s.outstandingJobs - 1 = 0) = true
      rw [show s.outstandingJobs - 1 = 0 from hzero]
      simp

theorem balance_of_reachable {s : ParallelDriver n} (h : Reachable s) :
    s.Balance := by
  induction h with
  | initial =>
    constructor
    · simp [initial, executing, jobs]
    · simp [initial]
  | step _ hstep ih => exact hstep.balance ih

/-- The counter is right, and the scheduler halts when no work is left. -/
structure CountedRight (s : ParallelDriver n) : Prop where
  counter : s.outstandingJobs = s.queue.card + s.executing
  halted : s.queue = 0 → s.executing = 0 → s.halting

/-- The counter is right exactly when no item was discarded. -/
theorem Balance.countedRight_iff {s : ParallelDriver n} (h : s.Balance) :
    s.CountedRight ↔ s.discarded = 0 := by
  have hcounter := h.counter
  constructor
  · intro hright
    have := hright.counter
    omega
  · intro hdiscarded
    constructor
    · omega
    · intro hqueue hexecuting
      apply h.halted
      rw [hcounter, hqueue, hexecuting, hdiscarded, Multiset.card_zero]

end ParallelDriver

/-! ## Both drivers -/

/-- The prefix that the first alternative is replayed with: two spawns, two
loads of one variable, a store, and the load that now reads it and fails. -/
def failingDepths : List Int := [-1, -1, 0, 1, -1, 2]

/-- The decisions of the two loads that were not changed. -/
def firstDecision : DecisionNode := .child .root 0

def secondDecision : DecisionNode := .child firstDecision 0

end ViEqui
