import ViEqui.Lib.VectorClock
import ViEqui.Tso.WakeupTree

/-!
# Race detection of Optimal-DPOR

`wakeup_sequence`, `sequence_clears_sleep` and `race_detect_optimal` of
`src/TSOTraceBuilder.cpp`.

`raceDetectOptimal_keeps`: the insertion keeps the sequence of a race if and
only if the errors of the cuts that it makes cancel.  The loop over the entries
behind a matched one sets the size of the last entry to `missing` and not to
what is left of it, so a cut is right when it halves its entry.
-/

namespace ViEqui.Tso

open VectorClock

/-! ## Executions and races -/

/-- `VClock::leq`. -/
def clockLeq (c d : Clock) : Bool :=
  (List.range c.length).all fun p => get c p ≤ get d p

/-- The parts of `Event` that race detection reads. -/
structure Event where
  iid : IID
  clock : Clock := []
  sym : Sym := []
deriving DecidableEq, Repr

/-- `WakeupTreeExplorationBuffer`: the execution `events` runs down the first
children of `tree`. -/
structure Prefix where
  tree : WakeupTree
  events : List Event

/-- `Race`.  The mutex of a failed lock is read by nobody. -/
inductive Race where
  | nonblock (first second : Nat)
  | observed (first second witness : Nat)
  | lockFail (first second : Nat) (process : IID)
  | lockSuc (first second unlock : Nat)
  | nondet (event alternative : Nat)
deriving DecidableEq, Repr

def Race.firstEvent : Race → Nat
  | nonblock first _ | observed first _ _ | lockFail first _ _ | lockSuc first _ _
  | nondet first _ => first

namespace Prefix

/-- The events with their branches. -/
def entries (b : Prefix) : List (Branch × Event) := b.tree.trunk.zip b.events

end Prefix

/-- `branch_with_symbolic_data`. -/
def branchWithSymbolicData (entry : Branch × Event) : Branch :=
  { entry.1 with sym := entry.2.sym }

/-- `reconstruct_lock_event`.  Its clock is not read here. -/
def reconstructLockEvent (first : Event) (process : IID) : Event :=
  { iid := process, sym := first.sym }

/-- The second event of a race with its branch.  Only the racy event is
replayed, unless the race is observed. -/
def secondBranch (b : Prefix) : Race → Option (Event × Branch)
  | .lockFail i _ process => b.entries[i]?.map fun first =>
      let second := reconstructLockEvent first.2 process
      (second, { pid := second.iid.pid, sym := second.sym })
  | .nondet i alternative => b.entries[i]?.map fun first =>
      (first.2, { branchWithSymbolicData first with alt := alternative, size := 1 })
  | .nonblock _ j | .lockSuc _ j _ => b.entries[j]?.map fun second =>
      (second.2, { branchWithSymbolicData second with size := 1 })
  | .observed _ j _ => b.entries[j]?.map fun second =>
      (second.2, branchWithSymbolicData second)

/-! ## Observers -/

/-- `is_observed_conflict` on three symbolic events. -/
def SymEv.isObservedConflict (snd thd : SymEv) : Bool :=
  thd.kind = .fullmem || (thd.doesLoad && thd.addr.overlaps snd.addr)

/-- `is_observed_conflict`: `thd` reads what `snd` wrote over `fst`. -/
def isObservedConflict (fst snd thd : Event) : Bool :=
  fst.iid.pid ≠ snd.iid.pid &&
  fst.sym.any fun fe => fe.kind = .unobsStore &&
    snd.sym.any fun se => se.kind = .store && fe.addr.overlaps se.addr &&
      thd.sym.any fun te => SymEv.isObservedConflict se te

/-- The locations read behind a point of a sequence, or those not read when
all others are. -/
structure LastReads where
  lastReads : List SymAddr := []
  readAll : Bool := false

namespace LastReads

def insert (r : LastReads) (a : SymAddrSize) : LastReads :=
  { r with lastReads := a.bytes ++ r.lastReads }

def erase (r : LastReads) (a : SymAddrSize) : LastReads :=
  { r with lastReads := r.lastReads.filter fun x => !a.includes x }

def intersects (r : LastReads) (a : SymAddrSize) : Bool :=
  r.lastReads.any fun x => a.includes x

end LastReads

/-- One event in the loop of `recompute_observed`, which runs backwards.  No
observed store is left when it starts. -/
def recomputeObservedEvent (e : SymEv) (r : LastReads) : SymEv × LastReads :=
  match e.kind with
  | .load | .cmpxhg | .cmpxhgFail =>
    (e, if r.readAll then r.erase e.addr else r.insert e.addr)
  | .unobsStore =>
    (if r.readAll ^^ r.intersects e.addr then SymEv.store e.addr e.written else e,
      if r.readAll then r.insert e.addr else r.erase e.addr)
  | .fullmem => (e, { lastReads := [], readAll := true })
  | _ => (e, r)

def recomputeObservedSym (sym : Sym) (r : LastReads) : Sym × LastReads :=
  sym.foldr (fun e (acc : Sym × LastReads) =>
    let done := recomputeObservedEvent e acc.2
    (done.1 :: acc.1, done.2)) ([], r)

/-- `recompute_observed`. -/
def recomputeObserved (v : List Branch) : List Branch :=
  (v.foldr (fun b (acc : List Branch × LastReads) =>
    let done := recomputeObservedSym b.sym.clearObserved acc.2
    ({ b with sym := done.1 } :: acc.1, done.2)) ([], {})).1

/-! ## Compare-exchanges -/

/-- The bytes found so far, and the addresses that are still needed. -/
structure Found where
  data : List UInt8
  needed : List SymAddr

/-- The body of the loop over the bytes of a store.  A block that was purged is
a null pointer. -/
def takeByte (ref : SymAddrSize) (p : SymEv) (found : Found) (a : SymAddr) : Option Found :=
  if a ∈ found.needed then
    (p.written.bind fun bytes => bytes[a.offset - p.addr.offset]?).map fun byte =>
      ⟨found.data.set (a.offset - ref.offset) byte, found.needed.filter (· ≠ a)⟩
  else some found

/-- The body of `rev_recompute_data`. -/
def revRecomputeData (ref : SymAddrSize) (found : Found) (p : SymEv) : Option Found :=
  match p.kind with
  | .store | .unobsStore | .cmpxhg =>
    if ref.overlaps p.addr then p.addr.bytes.foldlM (takeByte ref p) found else some found
  | _ => some found

/-- `recompute_cmpxhg_success`: `history` is the execution up to the race and
then `v`, and `before` the events of the same branch. -/
def recomputeCmpxhgSuccess (history : Sym) (before : Sym) : Sym → Option Sym
  | [] => some before
  | e :: es =>
    if e.kind = .cmpxhg ∨ e.kind = .cmpxhgFail then
      ((history ++ before).reverse.foldlM (revRecomputeData e.addr)
        ⟨List.replicate e.addr.size 0, e.addr.bytes⟩).bind fun found =>
      e.expected.bind fun expected =>
      recomputeCmpxhgSuccess history
        (before ++ [if expected.take e.addr.size = found.data then
          SymEv.cmpXhg e.addr e.written e.expected
        else SymEv.cmpXhgFail e.addr e.written e.expected]) es
    else recomputeCmpxhgSuccess history (before ++ [e]) es

/-! ## Wakeup sequences -/

/-- The accumulators of the loop of `wakeup_sequence`. -/
structure Gathered where
  v : List Branch := []
  observers : List Clock := []
  notobs : List Branch := []

/-- Is event `k` to be tested as an observer? -/
def Race.seeks : Race → Nat → Bool
  | .observed _ j _, k => k ≠ j
  | _, _ => false

/-- The body of the loop for event `k`. -/
def gather (race : Race) (first second : Event) (g : Gathered)
    (entry : (Branch × Event) × Nat) : Gathered :=
  if !clockLeq first.clock entry.1.2.clock then
    { g with v := g.v ++ [branchWithSymbolicData entry.1] }
  else if race.seeks entry.2 && !g.observers.any (fun o => clockLeq o entry.1.2.clock) then
    if isObservedConflict first second entry.1.2 then
      { g with observers := g.observers ++ [entry.1.2.clock] }
    else { g with notobs := g.notobs ++ [branchWithSymbolicData entry.1] }
  else g

/-- The second branch, with its compare-exchanges run again behind `v`. -/
def replayed (b : Prefix) (race : Race) (v : List Branch) (br : Branch) : Option Branch :=
  match race with
  | .nonblock i _ =>
    (recomputeCmpxhgSuccess ((b.events.take i).flatMap Event.sym ++ v.flatMap Branch.sym) []
      br.sym).map fun sym => { br with sym }
  | _ => some br

/-- The end of the sequence of an observed race: the first event, what does not
observe it, and the witness. -/
def witnessed (b : Prefix) (race : Race) (g : Gathered) : Option (List Branch) :=
  match race with
  | .observed i _ k =>
    b.entries[i]?.bind fun first =>
    b.entries[k]?.map fun witness =>
      branchWithSymbolicData first :: g.notobs ++
        [{ branchWithSymbolicData witness with size := 1 }]
  | _ => some []

/-- `wakeup_sequence`. -/
def wakeupSequence (conf : DporAlgorithm) (b : Prefix) (race : Race) :
    Option (List Branch) :=
  b.entries[race.firstEvent]?.bind fun first =>
  (secondBranch b race).bind fun second =>
  let g := (b.entries.zipIdx.drop (race.firstEvent + 1)).foldl
    (gather race first.2 second.1) {}
  (replayed b race g.v second.2).bind fun br =>
  (witnessed b race g).map fun ending =>
  let v := g.v ++ br :: ending
  if conf = .observers then recomputeObserved v else v

/-! ## Sleep sets -/

/-- `obs_sleep::sleeper`. -/
structure Sleeper where
  pid : Nat
  sym : Sym
  notIfRead : Option SymAddrSize := none
deriving DecidableEq, Repr

/-- `obs_sleep`.  Both are vectors in no order. -/
structure ObsSleep where
  sleep : List Sleeper
  mustRead : List SymAddrSize := []
deriving DecidableEq, Repr

/-- `obs_wake_res`, with the sleep set that goes on. -/
inductive ObsWakeRes where
  | clear
  | continue (s : ObsSleep)
  | block
deriving DecidableEq, Repr

/-- The first loop of `obs_sleep_wake`, for observers.  It has no result when a
store hides what must be read. -/
def wakeReaders (s : ObsSleep) (e : SymEv) : Option ObsSleep :=
  let mustRead :=
    if e.kind = .fullmem then []
    else if e.doesLoad then s.mustRead.filter fun a => !a.overlaps e.addr
    else s.mustRead
  if e.isStore then
    if mustRead.any fun a => a.subsetof e.addr then none
    else some ⟨s.sleep.map fun sl =>
      if sl.sym.any fun f => f.isStore && f.addr = e.addr then
        { sl with notIfRead := some e.addr }
      else sl, mustRead⟩
  else some { s with mustRead }

/-- The second loop of `obs_sleep_wake`: the sleepers that stay and what must be
read.  It has no result when `p` sleeps. -/
def wakeSleepers (p : Nat) (sym : Sym) : List Sleeper → Option (List Sleeper × List SymAddrSize)
  | [] => some ([], [])
  | s :: rest =>
    (wakeSleepers p sym rest).bind fun (stay, must) =>
      if s.pid = p then s.notIfRead.map fun a => (stay, a :: must)
      else if doEventsConflict p sym s.pid s.sym then some (stay, must)
      else some (s :: stay, must)

/-- `obs_sleep_wake`. -/
def obsSleepWake (conf : DporAlgorithm) (s : ObsSleep) (p : Nat) (sym : Sym) : ObsWakeRes :=
  match if conf = .observers then sym.foldlM wakeReaders s else some s with
  | none => .block
  | some s =>
    match wakeSleepers p sym s.sleep with
    | none => .block
    | some (stay, must) =>
      if stay.isEmpty && s.mustRead.isEmpty && must.isEmpty then .clear
      else .continue ⟨stay, s.mustRead ++ must⟩

/-- `sequence_clears_sleep`. -/
def sequenceClearsSleep (conf : DporAlgorithm) : List Branch → ObsSleep → Bool
  | [], _ => false
  | b :: seq, s =>
    match obsSleepWake conf s b.pid b.sym with
    | .clear => true
    | .continue s' => sequenceClearsSleep conf seq s'
    | .block => false

/-- `race_detect_optimal`. -/
def raceDetectOptimal (conf : DporAlgorithm) (b : Prefix) (race : Race) (isleep : ObsSleep) :
    Option Prefix :=
  (wakeupSequence conf b race).bind fun v =>
  if !sequenceClearsSleep conf v isleep then some b
  else (b.tree.nodeAt race.firstEvent).map fun node =>
    { b with tree := b.tree.setAt race.firstEvent (insertNode conf node v) }

/-! ## The sequence is kept -/

/-- Each branch passed is a weak initial of what was left of the sequence. -/
def WeakInitials : List Branch → List Branch → Prop
  | _, [] => True
  | v, b :: passed =>
    WeakInitial b v ∧ ∃ v', passChild v b = .recurse v' ∧ WeakInitials v' passed

/-- `v` was inserted at the node of event `i`: the tree is unchanged when the
descent reached a leaf or `v` ran out, and else it has one run more. -/
def Inserted (conf : DporAlgorithm) (tree : WakeupTree) (i : Nat) (v : List Branch)
    (tree' : WakeupTree) : Prop :=
  ∃ node passed stop, tree.nodeAt i = some node ∧ Descent node v passed stop ∧
    WeakInitials v passed ∧
    match stop with
    | .leaf => tree' = tree
    | .ranOut rest => tree' = tree ∧ rest.length = 1
    | .fresh rest =>
      tree.Adds (tree.trunk.take i ++ (passed ++ rest.map (prepare conf))) tree' ∧
      tree'.Distinct Branch.key ∧
      ∀ pid, steps pid passed ≤ steps pid v →
        steps pid passed + steps pid rest = steps pid v

/-- The insertion of the sequence of a race keeps the sequence. -/
def KeepsSequence (conf : DporAlgorithm) (b : Prefix) (race : Race) (isleep : ObsSleep) : Prop :=
  ∀ v, wakeupSequence conf b race = some v →
    ∃ b', raceDetectOptimal conf b race isleep = some b' ∧ b'.events = b.events ∧
      if sequenceClearsSleep conf v isleep = true
      then Inserted conf b.tree race.firstEvent v b'.tree
      else b'.tree = b.tree

/-- The errors of the cuts cancel for each thread that the branches passed do
not use up. -/
def ErrorsCancel (conf : DporAlgorithm) (b : Prefix) (race : Race) (isleep : ObsSleep) : Prop :=
  ∀ v node passed rest, wakeupSequence conf b race = some v →
    sequenceClearsSleep conf v isleep = true →
    b.tree.nodeAt race.firstEvent = some node → Descent node v passed (.fresh rest) →
    ∀ pid, steps pid passed ≤ steps pid v → passedError pid v passed = 0

theorem Descent.weakInitials {t : WakeupTree} {v passed : List Branch} {stop : Stop}
    (h : Descent t v passed stop) : WeakInitials v passed := by
  induction h with
  | leaf | ranOut _ | fresh _ _ => trivial
  | pass hchoose _ ih =>
    have hstep := (choose_spec hchoose).1
    exact ⟨weakInitial_of_recurse hstep, _, hstep, ih⟩

theorem Descent.length_of_ranOut {t : WakeupTree} {v passed rest : List Branch}
    (h : Descent t v passed (.ranOut rest)) : rest.length = 1 := by
  generalize hstop : Stop.ranOut rest = stop at h
  induction h with
  | leaf | fresh _ _ => cases hstop
  | @ranOut t node v b hchoose =>
    obtain rfl := Stop.ranOut.inj hstop
    have hscan := scanned_passChild rest b
    rw [(choose_spec hchoose).1] at hscan
    cases hscan with
    | last _ => rfl
  | pass _ _ ih => exact ih hstop

/-- The node of the first event of a race exists. -/
theorem nodeAt_of_wakeupSequence {conf : DporAlgorithm} {b : Prefix} {race : Race}
    {v : List Branch} (h : wakeupSequence conf b race = some v) :
    ∃ node, b.tree.nodeAt race.firstEvent = some node := by
  obtain ⟨first, hfirst, -⟩ := Option.bind_eq_some_iff.mp h
  obtain ⟨hlt, -⟩ := List.getElem?_eq_some_iff.mp hfirst
  rw [Prefix.entries, List.length_zip] at hlt
  exact OrderedTree.nodeAt_of_lt_trunk (by omega)

/-- What the insertion does, whatever the errors. -/
theorem inserted_insertNode {conf : DporAlgorithm} {tree node : WakeupTree} {i : Nat}
    {v passed : List Branch} {stop : Stop} (hdist : tree.Distinct Branch.key)
    (hat : tree.nodeAt i = some node) (h : Descent node v passed stop)
    (herror : ∀ rest, stop = .fresh rest →
      ∀ pid, steps pid passed ≤ steps pid v → passedError pid v passed = 0) :
    Inserted conf tree i v (tree.setAt i (insertNode conf node v)) := by
  have hsame : (∀ rest, stop ≠ .fresh rest) →
      tree.setAt i (insertNode conf node v) = tree := fun hstop => by
    rw [h.insertNode_eq conf hstop]
    exact OrderedTree.setAt_nodeAt hat
  refine ⟨node, passed, stop, hat, h, h.weakInitials, ?_⟩
  cases stop with
  | leaf => exact hsame fun _ h => by cases h
  | ranOut rest => exact ⟨hsame (fun _ h => by cases h), h.length_of_ranOut⟩
  | fresh rest =>
    obtain ⟨hadds, hkeep⟩ := h.adds conf
    obtain ⟨hnode, hset⟩ := hdist.nodeAt hat
    refine ⟨hadds.setAt hat h.nil_of_fresh, hset _ (hkeep hnode), ?_⟩
    intro pid hle
    have hsteps := h.steps pid
    rw [herror rest rfl pid hle] at hsteps
    omega

/-- `race_detect_optimal` keeps the sequence of a race exactly when the errors
of the cuts cancel. -/
theorem raceDetectOptimal_keeps (conf : DporAlgorithm) (b : Prefix) (race : Race)
    (isleep : ObsSleep) (hdist : b.tree.Distinct Branch.key) :
    KeepsSequence conf b race isleep ↔ ErrorsCancel conf b race isleep := by
  constructor
  · intro h v node passed rest hv hclears hat hdescent pid hle
    obtain ⟨b', -, -, hins⟩ := h v hv
    rw [if_pos hclears] at hins
    obtain ⟨node', passed', stop', hat', hdescent', -, hstop⟩ := hins
    cases hat.symm.trans hat'
    obtain ⟨rfl, rfl⟩ := hdescent.unique hdescent'
    have hkeep := hstop.2.2 pid hle
    have hsteps := hdescent.steps pid
    omega
  · intro h v hv
    obtain ⟨node, hat⟩ := nodeAt_of_wakeupSequence hv
    unfold raceDetectOptimal
    rw [hv]
    by_cases hclears : sequenceClearsSleep conf v isleep = true
    · obtain ⟨passed, stop, hdescent⟩ := Descent.exists node v
      refine ⟨{ b with tree := b.tree.setAt race.firstEvent (insertNode conf node v) },
        ?_, rfl, ?_⟩
      · simp [hclears, hat]
      · rw [if_pos hclears]
        refine inserted_insertNode hdist hat hdescent ?_
        intro rest hstop
        subst hstop
        exact h v node passed rest hv hclears hat hdescent
    · refine ⟨b, ?_, rfl, ?_⟩
      · simp [hclears]
      · rw [if_neg hclears]

/-! ## A wrong cut -/

/-- A store to the byte at `offset`, with the data of the execution or, in a
tree, without. -/
def storeAt (offset : Nat) (data : Block) : SymEv := .store ⟨.global 0, offset, 1⟩ data

/-- Thread 2 stores at 8 and later runs `size` steps, between two stores at 0.
At the first of these a branch with two steps of thread 2 is scheduled
already. -/
def longerBranch (size : Nat) : Prefix where
  tree := .cons { pid := 0, sym := [storeAt 0 none] }
    (.cons { pid := 2, sym := [storeAt 8 none] }
      (.cons { pid := 4, sym := [storeAt 0 none] }
        (.cons { pid := 2, size } .nil .nil) .nil) .nil)
    (.cons { pid := 2, sym := [storeAt 8 none], size := 2 }
      (.cons { pid := 6, sym := [storeAt 0 none] } .nil .nil) .nil)
  events := [{ iid := ⟨0, 1⟩, clock := [1], sym := [storeAt 0 (some [1])] },
    { iid := ⟨2, 1⟩, clock := [0, 0, 1], sym := [storeAt 8 (some [1])] },
    { iid := ⟨4, 1⟩, clock := [1, 0, 0, 0, 1], sym := [storeAt 0 (some [1])] },
    { iid := ⟨2, 2⟩, clock := [0, 0, 2] }]

/-- An entry of two steps is halved by the one step that is missing. -/
theorem raceDetectOptimal_keeps_halved :
    (longerBranch 2).tree.Distinct Branch.key ∧
      (KeepsSequence .optimal (longerBranch 2) (.nonblock 0 2) ⟨[], []⟩ ↔
        ErrorsCancel .optimal (longerBranch 2) (.nonblock 0 2) ⟨[], []⟩) :=
  ⟨by decide, raceDetectOptimal_keeps _ _ _ _ (by decide)⟩

/-- Of an entry of three steps one is left in place of two. -/
theorem not_keepsSequence :
    (longerBranch 3).tree.Distinct Branch.key ∧
      ¬ KeepsSequence .optimal (longerBranch 3) (.nonblock 0 2) ⟨[], []⟩ := by
  refine ⟨by decide, ?_⟩
  intro h
  obtain ⟨b', -, -, hins⟩ := h [{ pid := 2, sym := [storeAt 8 (some [1])] },
    { pid := 2, size := 3 }, { pid := 4, sym := [storeAt 0 (some [1])] }] rfl
  rw [if_pos (by decide)] at hins
  obtain ⟨node, passed, stop, hat, hdescent, -, hstop⟩ := hins
  cases hat
  have hend := hdescent.unique (.pass rfl (.fresh (by simp) rfl) :
    Descent _ _ [{ pid := 2, sym := [storeAt 8 none], size := 2 }]
      (.fresh [{ pid := 2 }, { pid := 4, sym := [storeAt 0 (some [1])] }]))
  obtain ⟨rfl, rfl⟩ := hend
  exact absurd (hstop.2.2 2 (by decide)) (by decide)

end ViEqui.Tso
