import Mathlib.Algebra.BigOperators.Group.Finset.Basic
import Mathlib.Algebra.Order.BigOperators.Group.Finset
import Mathlib.Algebra.Ring.Nat
import ViEqui.Event
import ViEqui.Lib.Attempts
import ViEqui.Lib.GetD
import ViEqui.Lib.VectorClock

/-!
# The replay of an execution under SC

`has_cycle` of `src/TSOTraceBuilder.cpp` schedules the threads of a recorded
execution round-robin.  An instruction has to wait until the other threads have
run what its clock contains, and a store in the buffer also for what the clock
of its update contains.

* `ProcInv` and `Inv`: what holds of a thread and of the loop.  A thread is
  `Stuck` when it is at its end or waits for another one.
* `step_spec`: one iteration keeps the invariant and decreases a measure, or
  leaves the loop with every thread stuck.
* `replay_spec`: the loop terminates.
-/

namespace ViEqui.Tso

open VectorClock

/-! ## Recorded executions -/

/-- The parts of `Event` that `has_cycle` reads, with the size of the branch.
`happensAfter` are the events whose clocks `compute_vclocks` adds. -/
structure RecordedEvent where
  iid : IID
  originIid : IID := default
  size : Nat := 1
  clock : Clock := []
  happensAfter : List Nat := []
deriving DecidableEq, Repr, Inhabited

/-- `prefix` and the number of threads.  Thread `2 * p` is a real one, and
`2 * p + 1` updates the memory from its store buffer. -/
structure Execution where
  threads : Nat
  events : List RecordedEvent

namespace Execution

/-- `stupd_t`: a store and the position of its update. -/
structure StUpd where
  store : Nat
  update : Nat

/-- `stores[proc]`. -/
def stores (x : Execution) (proc : Nat) : List StUpd :=
  x.events.zipIdx.filterMap fun e =>
    if e.1.iid.pid % 2 = 1 ∧ e.1.iid.pid / 2 = proc then some ⟨e.1.originIid.idx, e.2⟩ else none

/-- `proc_t`. -/
structure Proc where
  pc : Nat := 0
  pfxIndex : Nat := 0
  storeIndex : Nat := 0
  blocked : Bool := false
  blockClock : Clock := []
deriving Inhabited

/-- The variables of the loop. -/
structure Replay where
  procs : List Proc
  proc : Nat
  alive : Bool

/-- What an iteration of the loop does. -/
inductive Step where
  | continue (s : Replay)
  | stop (procs : List Proc)

/-- The next event of a process. -/
def nextEvent (x : Execution) (proc i : Nat) : Nat :=
  i + (x.events.drop i).findIdx fun e => e.iid.pid = 2 * proc

/-- Try another process.  The loop ends when no process was scheduled in a
round. -/
def nextProc (x : Execution) (s : Replay) (procs : List Proc) : Step :=
  if (s.proc + 1) % x.threads = 0 then
    if s.alive then .continue ⟨procs, 0, false⟩ else .stop procs
  else .continue ⟨procs, (s.proc + 1) % x.threads, s.alive⟩

/-- The clock that the next instruction of a process waits for. -/
def await (x : Execution) (proc : Nat) (evt : RecordedEvent) (p : Proc) : Proc :=
  let blockClock := put evt.clock (2 * proc) (p.pc + 1)
  match (x.stores proc)[p.storeIndex]? with
  | some st =>
    if st.store = p.pc + 1 then
      { p with
        blockClock := join blockClock (x.events.getD st.update default).clock,
        storeIndex := p.storeIndex + 1 }
    else { p with blockClock }
  | none => { p with blockClock }

/-- Is there some process that `proc` has to wait for? -/
def mustWait (x : Execution) (procs : List Proc) (proc : Nat) (clock : Clock) : Bool :=
  (List.range x.threads).any fun i =>
    i ≠ proc && (procs.getD i default).pc < get clock (2 * i)

/-- The end of the instructions that run with the next one: the last one of the
event, or the one in front of the next store. -/
def lastOf (x : Execution) (proc : Nat) (evt : RecordedEvent) (p : Proc) : Nat :=
  let last := evt.iid.idx + evt.size - 1
  match (x.stores proc)[p.storeIndex]? with
  | some st => if st.store - 1 < last then st.store - 1 else last
  | none => last

/-- Run the next instruction of a process. -/
def advance (x : Execution) (proc : Nat) (evt : RecordedEvent) (p : Proc) : Proc :=
  let nextPc := x.lastOf proc evt p
  { p with
    pc := nextPc,
    pfxIndex := if nextPc + 1 = evt.iid.idx + evt.size then p.pfxIndex + 1 else p.pfxIndex }

/-- The body of the loop. -/
def step (x : Execution) (s : Replay) : Step :=
  let p := s.procs.getD s.proc default
  let p := { p with pfxIndex := x.nextEvent s.proc p.pfxIndex }
  match x.events[p.pfxIndex]? with
  | none => x.nextProc s (s.procs.set s.proc p)
  | some evt =>
    let p := if p.blocked then p else x.await s.proc evt p
    if x.mustWait s.procs s.proc p.blockClock then
      x.nextProc s (s.procs.set s.proc { p with blocked := true })
    else
      .continue ⟨s.procs.set s.proc (x.advance s.proc evt { p with blocked := false }),
        s.proc, true⟩

/-- The loop. -/
def replay (x : Execution) : Nat → Replay → Option (List Proc)
  | 0, _ => none
  | fuel + 1, s =>
    match x.step s with
    | .continue s => x.replay fuel s
    | .stop procs => some procs

/-- The variables behind the loop.  No update is -1 in the source. -/
structure Report where
  updIdx : Option Nat := none
  hasCycle : Bool := false
  loc : Option IID := none

/-- The store that a process waits with, when its update is later than those
seen. -/
def laterStore (x : Execution) (updIdx : Option Nat) (i : Nat) (p : Proc) : Option StUpd :=
  if 0 < p.storeIndex then
    (x.stores i)[p.storeIndex - 1]?.filter fun st =>
      st.store = p.pc + 1 && updIdx.all (· < st.update)
  else none

/-- The body of the loop over the processes. -/
def report (x : Execution) (procs : List Proc) (r : Report) (i : Nat) : Report :=
  let p := procs.getD i default
  if p.blocked then
    match x.laterStore r.updIdx i p with
    | some st => ⟨some st.update, true, x.events[st.update]?.map (·.iid)⟩
    | none => { r with hasCycle := true }
  else r

/-- `has_cycle`, with `*loc`. -/
def hasCycle (fuel : Nat) (x : Execution) : Option (Bool × Option IID) :=
  (x.replay fuel ⟨List.replicate x.threads {}, 0, false⟩).map fun procs =>
    let r := (List.range x.threads).foldl (x.report procs) {}
    (r.hasCycle, r.loc)

/-! ## Exact clocks -/

def pidAt (x : Execution) (i : Nat) : Nat := (x.events.getD i default).iid.pid
def idxAt (x : Execution) (i : Nat) : Nat := (x.events.getD i default).iid.idx
def clockAt (x : Execution) (i : Nat) : Nat → Nat := get (x.events.getD i default).clock

/-- Event `j` comes before event `i`, in the same thread or as it was
recorded. -/
def Edge (x : Execution) (j i : Nat) : Prop :=
  ∃ f e, x.events[j]? = some f ∧ x.events[i]? = some e ∧ j < i ∧
    (f.iid.pid = e.iid.pid ∨ j ∈ e.happensAfter)

/-- The number of instructions that a thread runs in the first `i` events. -/
def ranIn (x : Execution) (pid i : Nat) : Nat :=
  (((x.events.take i).filter fun e => e.iid.pid = pid).map (·.size)).sum

/-- What `schedule`, `store` and `atomic_store` record: the events of a thread
are numbered by instructions, an update has the event of its store, and the
updates of a thread are those of different events in their order, since
`store` keeps its event from being merged.  The clocks are exact. -/
structure Recorded (x : Execution) : Prop where
  threads_pos : 0 < x.threads
  pid_lt : ∀ e ∈ x.events, e.iid.pid < x.threads
  size_pos : ∀ e ∈ x.events, 0 < e.size
  idx_eq : ∀ (i : Nat) (e : RecordedEvent), x.events[i]? = some e →
    e.iid.idx = x.ranIn e.iid.pid i + 1
  store : ∀ (i : Nat) (u : RecordedEvent), x.events[i]? = some u → u.iid.pid % 2 = 1 →
    ∃ (j : Nat) (e : RecordedEvent), x.events[j]? = some e ∧ j < i ∧ e.iid = u.originIid ∧
      e.iid.pid + 1 = u.iid.pid ∧ j ∈ u.happensAfter
  fifo : ∀ (i j : Nat) (u v : RecordedEvent), x.events[i]? = some u → x.events[j]? = some v →
    i < j → u.iid.pid = v.iid.pid → u.iid.pid % 2 = 1 → u.originIid.idx < v.originIid.idx
  sound : Sound x.Edge x.pidAt x.idxAt x.clockAt
  above : Above x.Edge x.pidAt x.idxAt x.clockAt {i | i < x.events.length}

theorem ranIn_succ {x : Execution} {i : Nat} {e : RecordedEvent} (pid : Nat)
    (h : x.events[i]? = some e) :
    x.ranIn pid (i + 1) = x.ranIn pid i + if e.iid.pid = pid then e.size else 0 := by
  unfold ranIn
  rw [List.take_add_one, h, List.filter_append, List.map_append, List.sum_append]
  by_cases hpid : e.iid.pid = pid
  · simp [hpid]
  · simp [hpid]

theorem ranIn_succ_of_none {x : Execution} {i : Nat} (pid : Nat) (h : x.events[i]? = none) :
    x.ranIn pid (i + 1) = x.ranIn pid i := by
  unfold ranIn
  rw [List.take_add_one, h, Option.toList_none, List.append_nil]

theorem ranIn_mono {x : Execution} (pid : Nat) {i j : Nat} (h : i ≤ j) :
    x.ranIn pid i ≤ x.ranIn pid j := by
  induction h with
  | refl => exact Nat.le_refl _
  | @step j _ ih =>
    cases hget : x.events[j]? with
    | none => rw [ranIn_succ_of_none pid hget]; exact ih
    | some e => rw [ranIn_succ pid hget]; omega

/-- Between two positions the thread has no event. -/
theorem ranIn_eq {x : Execution} {pid i j : Nat} (h : i ≤ j)
    (hother : ∀ k e, i ≤ k → k < j → x.events[k]? = some e → e.iid.pid ≠ pid) :
    x.ranIn pid j = x.ranIn pid i := by
  induction h with
  | refl => rfl
  | @step j hle ih =>
    have ih := ih fun k e hk hlt => hother k e hk (by omega)
    cases hget : x.events[j]? with
    | none => rw [ranIn_succ_of_none pid hget, ih]
    | some e =>
      rw [ranIn_succ pid hget, if_neg (hother j e hle (by omega) hget), ih, Nat.add_zero]

theorem nextEvent_other {x : Execution} {proc i k : Nat} {e : RecordedEvent} (hle : i ≤ k)
    (hlt : k < x.nextEvent proc i) (hget : x.events[k]? = some e) : e.iid.pid ≠ 2 * proc := by
  unfold nextEvent at hlt
  have hdrop : (x.events.drop i)[k - i]? = some e := by
    rw [List.getElem?_drop, Nat.add_sub_cancel' hle]
    exact hget
  obtain ⟨hlt', he⟩ := List.getElem?_eq_some_iff.mp hdrop
  have hnot : decide (((x.events.drop i)[k - i]).iid.pid = 2 * proc) = false :=
    List.not_of_lt_findIdx (p := fun e : RecordedEvent => decide (e.iid.pid = 2 * proc))
      (by omega)
  rw [he] at hnot
  exact of_decide_eq_false hnot

theorem nextEvent_pid {x : Execution} {proc i : Nat} {e : RecordedEvent}
    (h : x.events[x.nextEvent proc i]? = some e) : e.iid.pid = 2 * proc := by
  unfold nextEvent at h
  rw [← List.getElem?_drop] at h
  obtain ⟨hlt, he⟩ := List.getElem?_eq_some_iff.mp h
  have hfound : decide ((x.events.drop i)[(x.events.drop i).findIdx
      fun e => decide (e.iid.pid = 2 * proc)].iid.pid = 2 * proc) = true :=
    List.findIdx_getElem (w := hlt)
  rw [he] at hfound
  exact of_decide_eq_true hfound

theorem le_nextEvent (x : Execution) (proc i : Nat) : i ≤ x.nextEvent proc i :=
  Nat.le_add_right i _

theorem ranIn_nextEvent (x : Execution) (proc i : Nat) :
    x.ranIn (2 * proc) (x.nextEvent proc i) = x.ranIn (2 * proc) i :=
  ranIn_eq (x.le_nextEvent proc i) fun _ _ => nextEvent_other

theorem nextEvent_self {x : Execution} {proc i : Nat} {e : RecordedEvent}
    (h : x.events[i]? = some e) (hpid : e.iid.pid = 2 * proc) : x.nextEvent proc i = i := by
  by_contra hne
  have hlt : i < x.nextEvent proc i := Nat.lt_of_le_of_ne (x.le_nextEvent proc i) (Ne.symm hne)
  exact nextEvent_other (Nat.le_refl i) hlt h hpid

theorem ranIn_le_total (x : Execution) (pid i : Nat) :
    x.ranIn pid i ≤ x.ranIn pid x.events.length := by
  rcases Nat.le_total i x.events.length with h | h
  · exact ranIn_mono pid h
  · refine Nat.le_of_eq (ranIn_eq h ?_)
    intro k e hk _ hget
    rw [List.getElem?_eq_none hk] at hget
    cases hget

/-- A thread without another event has run all its instructions. -/
theorem ranIn_of_nextEvent_none {x : Execution} {proc i : Nat}
    (h : x.events[x.nextEvent proc i]? = none) :
    x.ranIn (2 * proc) i = x.ranIn (2 * proc) x.events.length := by
  refine Nat.le_antisymm (x.ranIn_le_total _ i) ?_
  exact Nat.le_trans (ranIn_mono _ (List.getElem?_eq_none_iff.mp h))
    (Nat.le_of_eq (x.ranIn_nextEvent proc i))

/-! ## Instructions -/

/-- An instruction: a process and the number of the instruction in it. -/
abbrev Instr := Nat × Nat

/-- The instruction is one of the event. -/
def Holds (p k : Nat) (e : RecordedEvent) : Prop :=
  e.iid.pid = 2 * p ∧ e.iid.idx ≤ k ∧ k < e.iid.idx + e.size

def IsInstr (x : Execution) (i : Instr) : Prop := ∃ e ∈ x.events, Holds i.1 i.2 e

/-- The event updates the memory with the store. -/
def Updates (p k : Nat) (u : RecordedEvent) : Prop :=
  u.iid.pid = 2 * p + 1 ∧ u.originIid.idx = k

/-- The clock of `i`, for a store in the buffer with the clock of its update
added, contains `j`. -/
def Contains (x : Execution) (i j : Instr) : Prop :=
  (∃ e ∈ x.events, Holds i.1 i.2 e ∧ j.2 ≤ get (put e.clock (2 * i.1) i.2) (2 * j.1)) ∨
  ∃ u ∈ x.events, Updates i.1 i.2 u ∧ j.2 ≤ get u.clock (2 * j.1)

/-- `j` must come before `i`: by program order, or since the clock of `i`
contains it. -/
def Before (x : Execution) (j i : Instr) : Prop :=
  x.IsInstr j ∧ j ≠ i ∧ (j.1 = i.1 ∧ j.2 < i.2 ∨ x.Contains i j)

/-- The same, but of the clock of an instruction only what it contains of other
processes. -/
def BeforeOthers (x : Execution) (j i : Instr) : Prop :=
  x.IsInstr j ∧ (j.1 = i.1 ∧ j.2 < i.2 ∨ j.1 ≠ i.1 ∧ x.Contains i j)

theorem holds_iff {x : Execution} (h : x.Recorded) {i p : Nat} {e : RecordedEvent}
    (hget : x.events[i]? = some e) (hpid : e.iid.pid = 2 * p) (k : Nat) :
    Holds p k e ↔ x.ranIn (2 * p) i < k ∧ k ≤ x.ranIn (2 * p) (i + 1) := by
  have hidx := h.idx_eq i e hget
  rw [hpid] at hidx
  rw [ranIn_succ _ hget, if_pos hpid]
  unfold Holds
  rw [hidx]
  constructor
  · intro ⟨_, hlow, hhigh⟩
    omega
  · intro ⟨hlow, hhigh⟩
    exact ⟨hpid, by omega, by omega⟩

theorem holds_unique {x : Execution} (h : x.Recorded) {i j p k : Nat} {e f : RecordedEvent}
    (he : x.events[i]? = some e) (hf : x.events[j]? = some f) (hke : Holds p k e)
    (hkf : Holds p k f) : i = j := by
  have hi := (holds_iff h he hke.1 k).mp hke
  have hj := (holds_iff h hf hkf.1 k).mp hkf
  rcases Nat.lt_trichotomy i j with hlt | heq | hlt
  · have := ranIn_mono (x := x) (2 * p) (show i + 1 ≤ j from hlt)
    omega
  · exact heq
  · have := ranIn_mono (x := x) (2 * p) (show j + 1 ≤ i from hlt)
    omega

theorem isInstr_iff {x : Execution} (h : x.Recorded) {p k : Nat} :
    x.IsInstr (p, k) ↔ 0 < k ∧ k ≤ x.ranIn (2 * p) x.events.length := by
  constructor
  · intro ⟨e, hmem, hholds⟩
    obtain ⟨i, hget⟩ := List.getElem?_of_mem hmem
    have hi := (holds_iff (p := p) h hget hholds.1 k).mp hholds
    have := x.ranIn_le_total (2 * p) (i + 1)
    omega
  · intro ⟨hpos, hle⟩
    generalize x.events.length = n at hle
    induction n with
    | zero => simp [ranIn] at hle; omega
    | succ n ih =>
      by_cases hn : k ≤ x.ranIn (2 * p) n
      · exact ih hn
      · cases hget : x.events[n]? with
        | none =>
          rw [ranIn_succ_of_none _ hget] at hle
          exact absurd hle hn
        | some e =>
          by_cases hpid : e.iid.pid = 2 * p
          · exact ⟨e, List.mem_of_getElem? hget,
              (holds_iff h hget hpid k).mpr ⟨by omega, hle⟩⟩
          · rw [ranIn_succ _ hget, if_neg hpid] at hle
            exact absurd hle hn

theorem mem_stores {x : Execution} {p : Nat} {st : StUpd} :
    st ∈ x.stores p ↔ ∃ u, x.events[st.update]? = some u ∧ Updates p st.store u := by
  unfold stores
  rw [List.mem_filterMap]
  constructor
  · intro ⟨⟨u, i⟩, hmem, hst⟩
    dsimp only at hst
    split at hst
    · next hpid =>
      obtain rfl := Option.some.inj hst
      refine ⟨u, ?_, by omega, rfl⟩
      simpa using List.mem_zipIdx_iff_getElem?.mp hmem
    · cases hst
  · intro ⟨u, hget, hpid, hidx⟩
    refine ⟨(u, st.update), List.mem_zipIdx_iff_getElem?.mpr (by simpa using hget), ?_⟩
    show (if u.iid.pid % 2 = 1 ∧ u.iid.pid / 2 = p then some ⟨u.originIid.idx, st.update⟩
      else none) = some st
    rw [if_pos (by omega), hidx]

theorem stores_pairwise {x : Execution} (h : x.Recorded) (p : Nat) :
    (x.stores p).Pairwise fun a b => a.store < b.store := by
  unfold stores
  rw [List.pairwise_filterMap, List.pairwise_iff_getElem]
  intro i j hi hj hlt a ha b hb
  simp only [List.getElem_zipIdx, Nat.zero_add] at ha hb
  split at ha
  · next hpa =>
    split at hb
    · next hpb =>
      obtain rfl := Option.some.inj ha
      obtain rfl := Option.some.inj hb
      simp only [List.length_zipIdx] at hi hj
      exact h.fifo i j _ _ (List.getElem?_eq_getElem hi) (List.getElem?_eq_getElem hj) hlt
        (by omega) hpa.1
    · cases hb
  · cases ha

/-- The stores of a process are in order. -/
theorem store_lt {x : Execution} (h : x.Recorded) {p m n : Nat} {a b : StUpd}
    (ha : (x.stores p)[m]? = some a) (hb : (x.stores p)[n]? = some b) (hlt : m < n) :
    a.store < b.store := by
  obtain ⟨hm, rfl⟩ := List.getElem?_eq_some_iff.mp ha
  obtain ⟨hn, rfl⟩ := List.getElem?_eq_some_iff.mp hb
  exact List.pairwise_iff_getElem.mp (stores_pairwise h p) m n hm hn hlt

theorem store_le {x : Execution} (h : x.Recorded) {p m n : Nat} {a b : StUpd}
    (ha : (x.stores p)[m]? = some a) (hb : (x.stores p)[n]? = some b) (hle : m ≤ n) :
    a.store ≤ b.store := by
  rcases Nat.lt_or_eq_of_le hle with hlt | rfl
  · exact Nat.le_of_lt (store_lt h ha hb hlt)
  · obtain rfl := Option.some.inj (ha.symm.trans hb)
    exact Nat.le_refl _

theorem updates_unique {x : Execution} (h : x.Recorded) {p k i j : Nat} {u v : RecordedEvent}
    (hu : x.events[i]? = some u) (hv : x.events[j]? = some v) (hku : Updates p k u)
    (hkv : Updates p k v) : i = j := by
  have hpid : u.iid.pid = v.iid.pid := hku.1.trans hkv.1.symm
  have hodd : u.iid.pid % 2 = 1 := by rw [hku.1]; omega
  rcases Nat.lt_trichotomy i j with hlt | heq | hlt
  · have := h.fifo i j u v hu hv hlt hpid hodd
    rw [hku.2, hkv.2] at this
    omega
  · exact heq
  · have := h.fifo j i v u hv hu hlt hpid.symm (hpid ▸ hodd)
    rw [hku.2, hkv.2] at this
    omega

/-- A store of a process is one of its instructions, so its number is not 0. -/
theorem store_pos {x : Execution} (h : x.Recorded) {p n : Nat} {st : StUpd}
    (hst : (x.stores p)[n]? = some st) : 0 < st.store := by
  obtain ⟨u, hget, hpid, hidx⟩ := mem_stores.mp (List.mem_of_getElem? hst)
  obtain ⟨j, e, he, _, heq, _⟩ := h.store _ u hget (by omega)
  have := h.idx_eq j e he
  rw [heq, hidx] at this
  omega

/-- What an instruction waits for of another process. -/
theorem contains_iff {x : Execution} (h : x.Recorded) {p k i : Nat} {e : RecordedEvent}
    (hget : x.events[i]? = some e) (hholds : Holds p k e) {q : Nat} (hq : q ≠ p) (m : Nat) :
    x.Contains (p, k) (q, m) ↔ m ≤ get e.clock (2 * q) ∨
      ∃ u ∈ x.events, Updates p k u ∧ m ≤ get u.clock (2 * q) := by
  have hput : ∀ f : RecordedEvent, get (put f.clock (2 * p) k) (2 * q) = get f.clock (2 * q) := by
    intro f
    rw [get_put, if_neg (by omega)]
  refine or_congr_left ?_
  constructor
  · intro ⟨f, hmem, hf, hle⟩
    obtain ⟨j, hj⟩ := List.getElem?_of_mem hmem
    obtain rfl := holds_unique h hget hj hholds hf
    obtain rfl := Option.some.inj (hget.symm.trans hj)
    exact hput e ▸ hle
  · intro hle
    exact ⟨e, List.mem_of_getElem? hget, hholds, (hput e).symm ▸ hle⟩

/-! ## One thread -/

/-- The state of thread `p`.  A blocked one has passed the store that it waits
with, and knows what it waits for. -/
structure ProcInv (x : Execution) (p : Nat) (pr : Proc) : Prop where
  le : x.ranIn (2 * p) pr.pfxIndex ≤ pr.pc
  within : pr.pc = x.ranIn (2 * p) pr.pfxIndex ∨ pr.pc < x.ranIn (2 * p) (pr.pfxIndex + 1)
  stores : ∀ (n : Nat) (st : StUpd), (x.stores p)[n]? = some st →
    (n < pr.storeIndex ↔ st.store ≤ pr.pc + if pr.blocked then 1 else 0)
  storeIndex_le : pr.storeIndex ≤ (x.stores p).length
  waits : pr.blocked = true → ∃ e, x.events[pr.pfxIndex]? = some e ∧ Holds p (pr.pc + 1) e ∧
    ∀ q, q ≠ p → ∀ m, m ≤ get pr.blockClock (2 * q) ↔ x.Contains (p, pr.pc + 1) (q, m)

theorem procInv_default {x : Execution} (h : x.Recorded) (p : Nat) : x.ProcInv p default where
  le := by simp [ranIn, show (default : Proc).pfxIndex = 0 from rfl]
  within := .inl (by
    show 0 = x.ranIn (2 * p) 0
    simp [ranIn])
  stores n st hst := by
    have := store_pos h hst
    show n < 0 ↔ st.store ≤ 0 + 0
    omega
  storeIndex_le := Nat.zero_le _
  waits h := nomatch h

/-- The next event of a thread has its next instruction. -/
theorem ProcInv.holds {x : Execution} (h : x.Recorded) {p : Nat} {pr : Proc}
    (hinv : x.ProcInv p pr) {e : RecordedEvent} (hget : x.events[pr.pfxIndex]? = some e)
    (hpid : e.iid.pid = 2 * p) : Holds p (pr.pc + 1) e := by
  have hle := hinv.le
  have hpos := h.size_pos e (List.mem_of_getElem? hget)
  have hsucc := ranIn_succ (2 * p) hget
  rw [if_pos hpid] at hsucc
  refine (holds_iff h hget hpid _).mpr ⟨by omega, ?_⟩
  rcases hinv.within with hpc | hpc <;> omega

/-- To go on to the next event of the thread changes nothing. -/
theorem ProcInv.next {x : Execution} {p : Nat} {pr : Proc} (hinv : x.ProcInv p pr) :
    x.ProcInv p { pr with pfxIndex := x.nextEvent p pr.pfxIndex } := by
  have hran := x.ranIn_nextEvent p pr.pfxIndex
  refine ⟨hran ▸ hinv.le, ?_, hinv.stores, hinv.storeIndex_le, ?_⟩
  · rcases hinv.within with hpc | hpc
    · exact .inl (hran.symm ▸ hpc)
    · -- the thread is inside the event
      have hself : x.nextEvent p pr.pfxIndex = pr.pfxIndex := by
        cases hget : x.events[pr.pfxIndex]? with
        | none =>
          rw [ranIn_succ_of_none _ hget] at hpc
          exact absurd hinv.le (Nat.not_le.mpr hpc)
        | some e =>
          by_cases hpid : e.iid.pid = 2 * p
          · exact nextEvent_self hget hpid
          · rw [ranIn_succ _ hget, if_neg hpid] at hpc
            exact absurd hinv.le (Nat.not_le.mpr hpc)
      exact .inr (hself.symm ▸ hpc)
  · intro hblocked
    obtain ⟨e, hget, hholds, hclock⟩ := hinv.waits hblocked
    exact ⟨e, (nextEvent_self hget hholds.1).symm ▸ hget, hholds, hclock⟩

/-- The clock that a thread computes is the one of its next instruction. -/
theorem ProcInv.await {x : Execution} (h : x.Recorded) {p : Nat} {pr : Proc}
    (hinv : x.ProcInv p pr) (hblocked : pr.blocked = false) {e : RecordedEvent}
    (hget : x.events[pr.pfxIndex]? = some e) (hpid : e.iid.pid = 2 * p) :
    x.ProcInv p { x.await p e pr with blocked := true } := by
  have hholds := hinv.holds h hget hpid
  have hstores : ∀ (n : Nat) (st : StUpd), (x.stores p)[n]? = some st →
      (n < pr.storeIndex ↔ st.store ≤ pr.pc) := by
    have := hinv.stores
    rw [hblocked] at this
    exact this
  have hput : ∀ q, q ≠ p →
      get (put e.clock (2 * p) (pr.pc + 1)) (2 * q) = get e.clock (2 * q) := by
    intro q hq
    rw [get_put, if_neg (by omega)]
  -- without a store in the buffer
  have hplain : (∀ st, (x.stores p)[pr.storeIndex]? = some st → st.store ≠ pr.pc + 1) →
      x.ProcInv p { pr with
        blockClock := put e.clock (2 * p) (pr.pc + 1), blocked := true } := by
    intro hno
    have hnext : ∀ (n : Nat) (st : StUpd), (x.stores p)[n]? = some st →
        (n < pr.storeIndex ↔ st.store ≤ pr.pc + 1) := by
      intro n st hst
      rw [hstores n st hst]
      refine ⟨Nat.le_succ_of_le, fun hle => Nat.not_lt.mp fun hlt => ?_⟩
      -- otherwise the store is the next one
      have hge : pr.storeIndex ≤ n :=
        Nat.not_lt.mp fun hn => Nat.not_lt.mpr ((hstores n st hst).mp hn) hlt
      have hn := (List.getElem?_eq_some_iff.mp hst).1
      obtain ⟨first, hfirst⟩ : ∃ first, (x.stores p)[pr.storeIndex]? = some first :=
        ⟨_, List.getElem?_eq_getElem (Nat.lt_of_le_of_lt hge hn)⟩
      have hgt : pr.pc < first.store :=
        Nat.not_le.mp fun hle => Nat.lt_irrefl _ ((hstores _ first hfirst).mpr hle)
      exact hno first hfirst (Nat.le_antisymm (Nat.le_trans (store_le h hfirst hst hge) hle) hgt)
    refine ⟨hinv.le, hinv.within, hnext, hinv.storeIndex_le, fun _ => ⟨e, hget, hholds, ?_⟩⟩
    intro q hq m
    rw [contains_iff h hget hholds hq]
    dsimp only
    rw [hput q hq]
    refine (or_iff_left ?_).symm
    intro ⟨u, hmem, hu, _⟩
    obtain ⟨i, hi⟩ := List.getElem?_of_mem hmem
    obtain ⟨n, hn⟩ := List.getElem?_of_mem
      (mem_stores.mpr ⟨u, hi, hu⟩ : ⟨pr.pc + 1, i⟩ ∈ x.stores p)
    have hlt := (hnext n _ hn).mpr (Nat.le_refl _)
    exact Nat.lt_irrefl _ ((hstores n _ hn).mp hlt)
  unfold Execution.await
  dsimp only
  cases hst : (x.stores p)[pr.storeIndex]? with
  | none => exact hplain fun st hst' => by rw [hst] at hst'; cases hst'
  | some st =>
    dsimp only
    by_cases hstore : st.store = pr.pc + 1
    · rw [if_pos hstore]
      obtain ⟨u, hu, hupdates⟩ := mem_stores.mp (List.mem_of_getElem? hst)
      refine ⟨hinv.le, hinv.within, ?_, ?_, fun _ => ⟨e, hget, hholds, ?_⟩⟩
      · intro n st' hst'
        show n < pr.storeIndex + 1 ↔ st'.store ≤ pr.pc + 1
        rw [← hstore, Nat.lt_succ_iff]
        refine ⟨fun hle => store_le h hst' hst hle, fun hle => Nat.not_lt.mp fun hlt => ?_⟩
        exact absurd (store_lt h hst hst' hlt) (Nat.not_lt.mpr hle)
      · exact (List.getElem?_eq_some_iff.mp hst).1
      · intro q hq m
        rw [contains_iff h hget hholds hq]
        dsimp only
        rw [get_join, hput q hq, le_max_iff, List.getD_eq_getElem?_getD, hu, Option.getD_some]
        refine or_congr_right ?_
        constructor
        · intro hle
          exact ⟨u, List.mem_of_getElem? hu, hstore ▸ hupdates, hle⟩
        · intro ⟨v, hmem, hv, hle⟩
          obtain ⟨j, hj⟩ := List.getElem?_of_mem hmem
          obtain rfl := updates_unique h hu hj (hstore ▸ hupdates) hv
          obtain rfl := Option.some.inj (hu.symm.trans hj)
          exact hle
    · rw [if_neg hstore]
      refine hplain fun st' hst' => ?_
      rw [hst] at hst'
      obtain rfl := Option.some.inj hst'
      exact hstore

/-- The instructions that run together end in the event, and in front of the
next store. -/
theorem ProcInv.lastOf {x : Execution} (h : x.Recorded) {p : Nat} {pr : Proc}
    (hinv : x.ProcInv p { pr with blocked := true }) {e : RecordedEvent}
    (hholds : Holds p (pr.pc + 1) e) :
    pr.pc < x.lastOf p e pr ∧ x.lastOf p e pr < e.iid.idx + e.size ∧
      ∀ (n : Nat) (st : StUpd), (x.stores p)[n]? = some st →
        (n < pr.storeIndex ↔ st.store ≤ x.lastOf p e pr) := by
  obtain ⟨-, -, hhigh⟩ := hholds
  have hstores : ∀ (n : Nat) (st : StUpd), (x.stores p)[n]? = some st →
      (n < pr.storeIndex ↔ st.store ≤ pr.pc + 1) := hinv.stores
  have hbounds : pr.pc < x.lastOf p e pr ∧ x.lastOf p e pr < e.iid.idx + e.size ∧
      ∀ first, (x.stores p)[pr.storeIndex]? = some first → x.lastOf p e pr < first.store := by
    unfold Execution.lastOf
    dsimp only
    cases hst : (x.stores p)[pr.storeIndex]? with
    | none =>
      dsimp only
      exact ⟨by omega, by omega, fun _ hfirst => nomatch hfirst⟩
    | some first =>
      have hgt : pr.pc + 1 < first.store :=
        Nat.not_le.mp fun hle => Nat.lt_irrefl _ ((hstores _ first hst).mpr hle)
      clear hstores
      dsimp only
      split <;>
      · refine ⟨by omega, by omega, fun st hst => ?_⟩
        obtain rfl := Option.some.inj hst
        omega
  obtain ⟨hlow, hend, hnext⟩ := hbounds
  refine ⟨hlow, hend, fun n st hst => ⟨fun hlt => ?_, fun hle => ?_⟩⟩
  · exact Nat.le_trans ((hstores n st hst).mp hlt) hlow
  · refine Nat.not_le.mp fun hge => ?_
    have hlt := (List.getElem?_eq_some_iff.mp hst).1
    obtain ⟨first, hfirst⟩ : ∃ first, (x.stores p)[pr.storeIndex]? = some first :=
      ⟨_, List.getElem?_eq_getElem (Nat.lt_of_le_of_lt hge hlt)⟩
    have := store_le h hfirst hst hge
    exact absurd hle (Nat.not_le.mpr (Nat.lt_of_lt_of_le (hnext first hfirst) this))

theorem ProcInv.advance {x : Execution} (h : x.Recorded) {p : Nat} {pr : Proc}
    (hinv : x.ProcInv p { pr with blocked := true }) {e : RecordedEvent}
    (hget : x.events[pr.pfxIndex]? = some e) (hholds : Holds p (pr.pc + 1) e) :
    x.ProcInv p (x.advance p e { pr with blocked := false }) := by
  obtain ⟨hpc, hlast, hstores⟩ := hinv.lastOf h hholds
  have hidx := h.idx_eq _ e hget
  rw [hholds.1] at hidx
  have hsucc := ranIn_succ (2 * p) hget
  rw [if_pos hholds.1] at hsucc
  have hle : x.ranIn (2 * p) pr.pfxIndex ≤ pr.pc := hinv.le
  have hsame : x.lastOf p e { pr with blocked := false } = x.lastOf p e pr := rfl
  unfold Execution.advance
  rw [hsame]
  dsimp only
  by_cases hend : x.lastOf p e pr + 1 = e.iid.idx + e.size
  · rw [if_pos hend]
    exact ⟨by dsimp only; omega, .inl (by dsimp only; omega), hstores, hinv.storeIndex_le,
      fun hb => nomatch hb⟩
  · rw [if_neg hend]
    exact ⟨by dsimp only; omega, .inr (by dsimp only; omega), hstores, hinv.storeIndex_le,
      fun hb => nomatch hb⟩

/-- An instruction that runs with another one waits for no more than that. -/
theorem contains_of_lastOf {x : Execution} (h : x.Recorded) {p : Nat} {pr : Proc}
    (hinv : x.ProcInv p { pr with blocked := true }) {e : RecordedEvent}
    (hget : x.events[pr.pfxIndex]? = some e) (hholds : Holds p (pr.pc + 1) e) {k : Nat}
    (hlow : pr.pc < k) (hhigh : k ≤ x.lastOf p e pr) :
    Holds p k e ∧ ∀ q, q ≠ p → ∀ m, x.Contains (p, k) (q, m) →
      x.Contains (p, pr.pc + 1) (q, m) := by
  obtain ⟨_, hlast, hstores⟩ := hinv.lastOf h hholds
  have hk : Holds p k e := ⟨hholds.1, by have := hholds.2.1; omega, by omega⟩
  refine ⟨hk, fun q hq m hcontains => ?_⟩
  rcases Nat.lt_or_eq_of_le (Nat.succ_le_of_lt hlow) with hlt | rfl
  · rcases (contains_iff h hget hk hq m).mp hcontains with hevent | ⟨u, hmem, hu, _⟩
    · exact (contains_iff h hget hholds hq m).mpr (.inl hevent)
    · -- there is no store behind the first instruction
      obtain ⟨i, hi⟩ := List.getElem?_of_mem hmem
      obtain ⟨n, hn⟩ := List.getElem?_of_mem
        (mem_stores.mpr ⟨u, hi, hu⟩ : (⟨k, i⟩ : StUpd) ∈ x.stores p)
      have hthen := hinv.stores n _ hn
      have hthere := hstores n _ hn
      simp only [if_true] at hthen
      dsimp only at hthere
      omega
  · exact hcontains

/-! ## The instructions that ran -/

/-- The instructions up to `pcs` have an order. -/
def Ran (x : Execution) (pcs : Nat → Nat) : Prop :=
  ∃ log, Attempts.Attempt x.IsInstr x.BeforeOthers log ∧
    ∀ q m, (q, m) ∈ log ↔ 0 < m ∧ m ≤ pcs q

/-- A process runs up to `n`. -/
theorem Ran.extend {x : Execution} (hrec : x.Recorded) {pcs : Nat → Nat} (h : x.Ran pcs)
    {p n : Nat}
    (hn : pcs p ≤ n) (hrun : ∀ k, pcs p < k → k ≤ n → x.IsInstr (p, k) ∧
      ∀ q m, q ≠ p → x.IsInstr (q, m) → x.Contains (p, k) (q, m) → 0 < m ∧ m ≤ pcs q) :
    x.Ran (Function.update pcs p n) := by
  induction n with
  | zero =>
    rw [← Nat.le_zero.mp hn, Function.update_eq_self]
    exact h
  | succ n ih =>
    rcases Nat.lt_or_eq_of_le hn with hlt | heq
    · obtain ⟨log, hlog, hmem⟩ := ih (by omega) fun k hlow hhigh => hrun k hlow (by omega)
      obtain ⟨hinstr, hothers⟩ := hrun (n + 1) hlt (Nat.le_refl _)
      have hself : Function.update pcs p n p = n := Function.update_self ..
      have hothersEq : ∀ q, q ≠ p → ∀ k, Function.update pcs p k q = pcs q :=
        fun q hq k => Function.update_of_ne hq ..
      refine ⟨log ++ [(p, n + 1)], hlog.concat hinstr ?_ ?_, ?_⟩
      · rw [hmem, hself]
        omega
      · intro ⟨q, m⟩ ⟨hj, hbefore⟩
        rw [hmem]
        rcases hbefore with ⟨rfl, hm⟩ | ⟨hq, hcontains⟩
        · have hpos := ((isInstr_iff hrec).mp hj).1
          dsimp only at hm ⊢
          rw [hself]
          omega
        · rw [hothersEq q hq]
          exact hothers q m hq hj hcontains
      · intro q m
        rw [List.mem_append, hmem, List.mem_singleton, Prod.mk.injEq]
        by_cases hq : q = p
        · subst hq
          rw [hself, Function.update_self]
          omega
        · rw [hothersEq q hq, hothersEq q hq]
          simp [hq]
    · rw [← heq, Function.update_eq_self]
      exact h

/-! ## The loop -/

/-- The program counter of a process. -/
def pcOf (procs : List Proc) (p : Nat) : Nat := (procs.getD p default).pc

/-- The process is at its end, or it is blocked. -/
def Stuck (x : Execution) (procs : List Proc) (p : Nat) : Prop :=
  pcOf procs p = x.ranIn (2 * p) x.events.length ∨
    (procs.getD p default).blocked = true ∧
      x.mustWait procs p (procs.getD p default).blockClock = true

/-- The processes in the loop. -/
structure ProcsInv (x : Execution) (procs : List Proc) : Prop where
  length : procs.length = x.threads
  each : ∀ p, p < x.threads → x.ProcInv p (procs.getD p default)
  ran : x.Ran (pcOf procs)

/-- The loop.  When nothing ran in this round, all processes that had their turn
are stuck. -/
structure Inv (x : Execution) (s : Replay) : Prop extends ProcsInv x s.procs where
  proc_lt : s.proc < x.threads
  round : s.alive = false → ∀ q, q < s.proc → x.Stuck s.procs q

/-- The loop has ended. -/
structure Stopped (x : Execution) (procs : List Proc) : Prop extends ProcsInv x procs where
  stuck : ∀ q, q < x.threads → x.Stuck procs q

/-- The instructions that have not run. -/
def remaining (x : Execution) (procs : List Proc) : Nat :=
  ∑ p ∈ Finset.range x.threads, (x.ranIn (2 * p) x.events.length - pcOf procs p)

/-- It decreases in each iteration: an instruction runs, or the round ends in
which one ran, or the next process has its turn. -/
def measure (x : Execution) (s : Replay) : Nat :=
  x.remaining s.procs * (2 * (x.threads + 1)) + (if s.alive then x.threads + 1 else 0) +
    (x.threads - s.proc)

theorem pcOf_set {procs : List Proc} {p : Nat} (hp : p < procs.length) (pr : Proc) :
    pcOf (procs.set p pr) = Function.update (pcOf procs) p pr.pc := by
  funext q
  unfold pcOf
  rw [GetD.getD_set _ _ hp]
  by_cases hq : q = p
  · subst hq
    rw [if_pos rfl, Function.update_self]
  · rw [if_neg hq, Function.update_of_ne hq]

/-- Only the program counters count for a process that waits. -/
theorem mustWait_congr (x : Execution) {procs procs' : List Proc} (h : pcOf procs = pcOf procs')
    (p : Nat) (c : Clock) : x.mustWait procs p c = x.mustWait procs' p c := by
  unfold mustWait
  have hpc : ∀ i, (procs.getD i default).pc = (procs'.getD i default).pc := congrFun h
  simp only [hpc]

/-- The state of one process is replaced. -/
theorem ProcsInv.set {x : Execution} {procs : List Proc} (h : x.ProcsInv procs) {p : Nat}
    (hp : p < x.threads) {pr : Proc} (hpr : x.ProcInv p pr)
    (hran : x.Ran (Function.update (pcOf procs) p pr.pc)) : x.ProcsInv (procs.set p pr) where
  length := by rw [List.length_set, h.length]
  each q hq := by
    rw [GetD.getD_set _ _ (h.length.symm ▸ hp)]
    by_cases heq : q = p
    · subst heq
      rw [if_pos rfl]
      exact hpr
    · rw [if_neg heq]
      exact h.each q hq
  ran := by
    rw [pcOf_set (h.length.symm ▸ hp)]
    exact hran

/-- A process that is stuck loses its turn. -/
theorem nextProc_spec {x : Execution} (hrec : x.Recorded) {s : Replay} (h : x.Inv s) {pr : Proc}
    (hpr : x.ProcInv s.proc pr) (hpc : pr.pc = pcOf s.procs s.proc)
    (hstuck : x.Stuck (s.procs.set s.proc pr) s.proc) :
    match x.nextProc s (s.procs.set s.proc pr) with
    | .continue s' => x.Inv s' ∧ x.measure s' < x.measure s
    | .stop procs => x.Stopped procs := by
  have hlt : s.proc < s.procs.length := h.length.symm ▸ h.proc_lt
  have hsame : pcOf (s.procs.set s.proc pr) = pcOf s.procs := by
    rw [pcOf_set hlt, hpc, Function.update_eq_self]
  have hprocs : x.ProcsInv (s.procs.set s.proc pr) :=
    h.toProcsInv.set h.proc_lt hpr (by rw [hpc, Function.update_eq_self]; exact h.ran)
  have hround : s.alive = false → ∀ q, q ≤ s.proc → x.Stuck (s.procs.set s.proc pr) q := by
    intro halive q hq
    rcases Nat.lt_or_eq_of_le hq with hlt' | rfl
    · have hold := h.round halive q hlt'
      unfold Stuck at hold ⊢
      rw [hsame, GetD.getD_set _ _ hlt, if_neg (Nat.ne_of_lt hlt'), mustWait_congr x hsame]
      exact hold
    · exact hstuck
  have hremaining : x.remaining (s.procs.set s.proc pr) = x.remaining s.procs := by
    unfold remaining
    rw [hsame]
  have hproc := h.proc_lt
  unfold nextProc
  by_cases hwrap : s.proc + 1 = x.threads
  · rw [if_pos (by rw [hwrap, Nat.mod_self])]
    cases halive : s.alive with
    | true =>
      rw [if_pos rfl]
      refine ⟨⟨hprocs, hrec.threads_pos, fun _ q hq => absurd hq (Nat.not_lt_zero q)⟩, ?_⟩
      unfold measure
      rw [hremaining, halive]
      simp only [Bool.false_eq_true, if_false, if_true]
      omega
    | false =>
      rw [if_neg (by decide)]
      exact ⟨hprocs, fun q hq => hround halive q (Nat.le_of_lt_succ (Nat.lt_of_lt_of_eq hq hwrap.symm))⟩
  · have hnext : s.proc + 1 < x.threads := Nat.lt_of_le_of_ne hproc hwrap
    rw [Nat.mod_eq_of_lt hnext, if_neg (Nat.succ_ne_zero _)]
    refine ⟨⟨hprocs, hnext, ?_⟩, ?_⟩
    · intro halive q hq
      exact hround halive q (Nat.le_of_lt_succ hq)
    · unfold measure
      rw [hremaining]
      dsimp only
      omega

theorem lt_threads_of_isInstr {x : Execution} (h : x.Recorded) {p k : Nat}
    (hinstr : x.IsInstr (p, k)) : p < x.threads := by
  obtain ⟨e, hmem, hpid, _⟩ := hinstr
  have := h.pid_lt e hmem
  dsimp only at hpid
  omega

theorem mustWait_eq_false {x : Execution} {procs : List Proc} {p : Nat} {c : Clock}
    (h : x.mustWait procs p c = false) {i : Nat} (hi : i < x.threads) (hne : i ≠ p) :
    get c (2 * i) ≤ pcOf procs i := by
  have hall := List.any_eq_false.mp h i (List.mem_range.mpr hi)
  simp only [ne_eq, hne, not_false_eq_true, decide_true, Bool.true_and, decide_eq_true_eq] at hall
  exact Nat.le_of_not_lt hall

/-- A process that need not wait runs. -/
theorem advance_spec {x : Execution} (hrec : x.Recorded) {s : Replay} (h : x.Inv s) {pr : Proc}
    (hpr : x.ProcInv s.proc { pr with blocked := true }) (hpc : pr.pc = pcOf s.procs s.proc)
    {evt : RecordedEvent} (hget : x.events[pr.pfxIndex]? = some evt)
    (hpid : evt.iid.pid = 2 * s.proc)
    (hwait : x.mustWait s.procs s.proc pr.blockClock = false) :
    x.Inv ⟨s.procs.set s.proc (x.advance s.proc evt { pr with blocked := false }), s.proc, true⟩ ∧
      x.measure ⟨s.procs.set s.proc (x.advance s.proc evt { pr with blocked := false }),
        s.proc, true⟩ < x.measure s := by
  have hholds : Holds s.proc (pr.pc + 1) evt := hpr.holds hrec hget hpid
  obtain ⟨hlow, hhigh, _⟩ := hpr.lastOf hrec hholds
  have hnext : (x.advance s.proc evt { pr with blocked := false }).pc = x.lastOf s.proc evt pr :=
    rfl
  have hinv := hpr.advance hrec hget hholds
  obtain ⟨_, hget', _, hclock⟩ := hpr.waits rfl
  have hran : x.Ran (Function.update (pcOf s.procs) s.proc (x.lastOf s.proc evt pr)) := by
    refine h.ran.extend hrec (by omega) fun k hk hle => ?_
    rw [← hpc] at hk
    obtain ⟨hevent, hothers⟩ := contains_of_lastOf hrec hpr hget hholds hk hle
    refine ⟨⟨evt, List.mem_of_getElem? hget, hevent⟩, fun q m hq hinstr hcontains => ?_⟩
    have hle := (hclock q hq m).mpr (hothers q hq m hcontains)
    have hpcs := mustWait_eq_false hwait (lt_threads_of_isInstr hrec hinstr) hq
    exact ⟨((isInstr_iff hrec).mp hinstr).1, Nat.le_trans hle hpcs⟩
  have hlt : s.proc < s.procs.length := h.length.symm ▸ h.proc_lt
  refine ⟨⟨h.toProcsInv.set h.proc_lt hinv (hnext ▸ hran), h.proc_lt, fun ha => nomatch ha⟩, ?_⟩
  have hremaining : x.remaining
      (s.procs.set s.proc (x.advance s.proc evt { pr with blocked := false })) <
      x.remaining s.procs := by
    refine Finset.sum_lt_sum ?_ ⟨s.proc, Finset.mem_range.mpr h.proc_lt, ?_⟩
    · intro p _
      rw [pcOf_set hlt, hnext]
      by_cases hp : p = s.proc
      · subst hp
        rw [Function.update_self]
        omega
      · rw [Function.update_of_ne hp]
    · rw [pcOf_set hlt, hnext, Function.update_self]
      have htotal := ((isInstr_iff (p := s.proc) (k := pr.pc + 1) hrec).mp
        ⟨evt, List.mem_of_getElem? hget, hholds⟩).2
      omega
  have hmul := Nat.mul_le_mul_right (2 * (x.threads + 1)) (Nat.succ_le_of_lt hremaining)
  rw [Nat.succ_mul] at hmul
  unfold measure
  simp only [if_true]
  omega

/-- One iteration of the loop. -/
theorem step_spec {x : Execution} (hrec : x.Recorded) {s : Replay} (h : x.Inv s) :
    match x.step s with
    | .continue s' => x.Inv s' ∧ x.measure s' < x.measure s
    | .stop procs => x.Stopped procs := by
  have hinv := (h.each s.proc h.proc_lt).next
  unfold step
  generalize hp : s.procs.getD s.proc default = old at hinv
  have hpc : old.pc = pcOf s.procs s.proc := by rw [pcOf, hp]
  have hlt : s.proc < s.procs.length := h.length.symm ▸ h.proc_lt
  dsimp only
  cases hget : x.events[x.nextEvent s.proc old.pfxIndex]? with
  | none =>
    -- the process is finished
    refine nextProc_spec hrec h hinv hpc (.inl ?_)
    rw [pcOf_set hlt, Function.update_self, ← ranIn_of_nextEvent_none hget,
      ← x.ranIn_nextEvent s.proc]
    rcases hinv.within with hpc | hpc
    · exact hpc
    · have hle := hinv.le
      dsimp only at hpc hle
      rw [ranIn_succ_of_none _ hget] at hpc
      omega
  | some evt =>
    have hpid := nextEvent_pid hget
    dsimp only
    generalize hpr : (if old.blocked then { old with
        pfxIndex := x.nextEvent s.proc old.pfxIndex }
      else x.await s.proc evt { old with pfxIndex := x.nextEvent s.proc old.pfxIndex }) = pr
    have hawait : x.ProcInv s.proc { pr with blocked := true } ∧ pr.pc = old.pc ∧
        pr.pfxIndex = x.nextEvent s.proc old.pfxIndex := by
      by_cases hblocked : old.blocked = true
      · rw [if_pos hblocked] at hpr
        subst hpr
        rw [hblocked] at hinv
        exact ⟨hinv, rfl, rfl⟩
      · rw [if_neg hblocked] at hpr
        subst hpr
        refine ⟨hinv.await hrec (by simpa using hblocked) hget hpid, ?_, ?_⟩ <;>
        · unfold Execution.await
          dsimp only
          split
          · split <;> rfl
          · rfl
    obtain ⟨hprInv, hprPc, hprIndex⟩ := hawait
    rw [hpc] at hprPc
    by_cases hwait : x.mustWait s.procs s.proc pr.blockClock = true
    · rw [if_pos hwait]
      refine nextProc_spec hrec h hprInv hprPc (.inr ?_)
      have hsame : pcOf (s.procs.set s.proc { pr with blocked := true }) = pcOf s.procs := by
        rw [pcOf_set hlt, hprPc, Function.update_eq_self]
      rw [GetD.getD_set _ _ hlt, if_pos rfl, mustWait_congr x hsame]
      exact ⟨rfl, hwait⟩
    · rw [if_neg hwait]
      exact advance_spec hrec h hprInv hprPc (hprIndex ▸ hget) hpid (by simpa using hwait)

/-- The loop terminates, with every process stuck. -/
theorem replay_spec {x : Execution} (hrec : x.Recorded) (fuel : Nat) {s : Replay} (h : x.Inv s)
    (hfuel : x.measure s < fuel) : ∃ procs, x.replay fuel s = some procs ∧ x.Stopped procs := by
  induction fuel generalizing s with
  | zero => exact absurd hfuel (Nat.not_lt_zero _)
  | succ fuel ih =>
    have hstep := step_spec hrec h
    unfold replay
    cases hs : x.step s with
    | «continue» s' =>
      rw [hs] at hstep
      exact ih hstep.1 (by omega)
    | stop procs =>
      rw [hs] at hstep
      exact ⟨procs, rfl, hstep⟩

/-- More fuel does not change the result. -/
theorem replay_mono {x : Execution} {fuel fuel' : Nat} (hle : fuel ≤ fuel') {s : Replay}
    {procs : List Proc} (h : x.replay fuel s = some procs) : x.replay fuel' s = some procs := by
  induction fuel generalizing fuel' s with
  | zero => cases h
  | succ fuel ih =>
    obtain ⟨fuel', rfl⟩ : ∃ n, fuel' = n + 1 := ⟨fuel' - 1, by omega⟩
    unfold replay at h ⊢
    cases hs : x.step s with
    | «continue» s' =>
      rw [hs] at h
      exact ih (by omega) h
    | stop procs' =>
      rw [hs] at h
      exact h

theorem inv_start {x : Execution} (hrec : x.Recorded) :
    x.Inv ⟨List.replicate x.threads {}, 0, false⟩ where
  length := List.length_replicate
  each p hp := by
    rw [List.getD_eq_getElem?_getD, List.getElem?_replicate, if_pos hp]
    exact procInv_default hrec p
  ran := by
    refine ⟨[], Attempts.attempt_nil, fun q m => ?_⟩
    have hpc : pcOf (List.replicate x.threads {}) q = 0 := by
      unfold pcOf
      rw [List.getD_eq_getElem?_getD, List.getElem?_replicate]
      split <;> rfl
    rw [hpc]
    simp
    omega
  proc_lt := hrec.threads_pos
  round _ q hq := absurd hq (Nat.not_lt_zero q)

end Execution

end ViEqui.Tso
