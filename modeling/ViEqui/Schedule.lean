import ViEqui.Analysis

/-!
# Scheduling, replay and reset

The operations of `ViewEqTraceBuilder` that the interpreter and the driver
call.  The source is compiled with its assertions off: `execution_sequence`
and the leads are default constructed by `Sequence()`, which asserts false.
A violated assertion therefore has no effect here either.
-/

namespace ViEqui

open AssocMap

namespace Builder

/-- Update `threads[t]`. -/
def modifyThread (b : Builder) (t : Nat) (f : Thread → Thread) : Builder :=
  { b with threads := b.threads.modify t f }

/-- `threads[t].push_back(event)`. -/
def pushEvent (b : Builder) (t : Nat) (e : Event) : Builder :=
  b.modifyThread t fun th => { th with events := th.events ++ [e] }

/-- `threads[t].pop_back()`. -/
def popEvent (b : Builder) (t : Nat) : Builder :=
  b.modifyThread t fun th => { th with events := th.events.dropLast }

/-- Update the event `e` in the thread table. -/
def modifyEvent (b : Builder) (e : IID) (f : Event → Event) : Builder :=
  b.modifyThread e.pid fun th => { th with events := th.events.modify e.idx f }

/-! ## Availability -/

/-- `mark_available`. -/
def markAvailable (b : Builder) (proc : Nat) : Builder :=
  b.modifyThread proc fun th => { th with available := true }

/-- `mark_unavailable`. -/
def markUnavailable (b : Builder) (proc : Nat) : Builder :=
  b.modifyThread proc fun th => { th with available := false }

/-- `refuse_schedule`. -/
def refuseSchedule (b : Builder) : Builder :=
  let b := { b with
    executionSequence := b.executionSequence.dropLast
    prefixState := b.prefixState.dropLast
    prefixIdx := b.prefixIdx - 1 }
  (b.popEvent b.currentThread).markUnavailable b.currentThread

/-! ## Execution of an event -/

/-- What an access does to the memory and to the value that its read has in
the thread table. -/
def performAccess (b : Builder) (e : Event) : Builder :=
  if e.isWrite then
    { b with
      currentEvent := e
      lastWrite := insert b.lastWrite e.object e.iid
      mem := insert b.mem e.object e.value }
  else if e.isRead then
    let value := b.memAt e.object
    { b with currentEvent := { e with value } }.modifyEvent e.iid
      fun ev => { ev with value }
  else { b with currentEvent := e }

/-- `execute_next_lead`. -/
def executeNextLead (b : Builder) : Builder :=
  let s := b.stateAt b.currentState
  let (lead, s) := match s.nextUnexploredLead with
    | some (i, s) => (s.leads.getD i default, s)
    | none => (default, s)
  let nextEvent := s.alphaSequence.headD default
  let toExplore := s.alphaSequence.tail
  let toExplore :=
    if nextEvent.isRead &&
        (toExplore.head?.any nextEvent.correspondingRmwStore) then
      toExplore.tail
    else toExplore
  let forbidden :=
    if nextEvent.isRead then
      lead.forbidden.reduce (nextEvent.iid, b.memAt nextEvent.object)
    else lead.forbidden
  let b := (b.modifyState b.currentState fun _ => s)
  let b := { b with
    enabled := b.enabled.erase nextEvent.iid
    toExplore
    forbidden
    currentThread := nextEvent.iid.pid }
  let b := b.performAccess (b.event nextEvent.iid)
  let b := { b with
    executionSequence := b.executionSequence ++ [b.currentEvent.iid]
    prefixState := b.prefixState ++ [some b.currentState]
    prefixIdx := b.prefixIdx + 1 }
  b.modifyThread b.currentThread fun th => { th with awaitingLoadStore := false }

/-! ## New states -/

/-- `make_new_state`. -/
def makeNewState (b : Builder) : Builder :=
  { b with
    currentState := b.states.length
    states := b.states ++
      [{ sequencePrefix := b.prefixIdx, forbidden := b.forbidden, mem := b.mem }] }

/-- `enabaled_RWpair_read`: the read of the first read-write pair in
`Enabled`. -/
def enabledRWpairRead (b : Builder) : List IID → Option IID
  | [] => none
  | i :: rest =>
    match rest.find? (fun j => (b.event i).rwPair (b.event j)) with
    | some j => some (if (b.event i).isRead then i else j)
    | none => enabledRWpairRead b rest

/-- `compute_new_leads`. -/
def computeNewLeads (env : Env) (b : Builder) : Option Builder := do
  match b.toExplore with
  | [] =>
    let (b, next) ← match b.enabledRWpairRead b.enabled with
      | some read => do
        let b ← b.analyseUnexploredInfluencers env read
        pure (b.modifyState b.currentState
          (fun s => { s with performedFwdAnalysis := true, fwdRead := read }), read)
      | none => pure (b, b.enabled.headD default)
    let b ← b.updateLeads env (b.event next) b.forbidden
    let lead := Lead.ofStart b.toContainer [next] b.forbidden b.mem
    let b ← if (b.stateAt b.currentState).hasUnexploredLeads then some b
      else b.union env b.currentState [lead]
    let b := b.modifyState b.currentState
      (fun s => { s with leadHeadExecutionPrefix := some b.prefixIdx })
    return { b with alphaHead := b.prefixIdx }
  | toExplore =>
    let b := b.modifyState b.currentState
      (fun s => { s with
        executingAlphaLead := true
        leadHeadExecutionPrefix := some b.alphaHead })
    let b ← b.union env b.currentState [Lead.ofEvents toExplore b.forbidden]
    return { b with toExplore := toExplore.tail }

/-- `exists_non_memory_access`: the newest thread that may take a step other
than a global access. -/
def existsNonMemoryAccess (b : Builder) : Option Nat :=
  ((List.range b.threads.length).reverse).find? fun i =>
    let th := b.threads.getD i default
    th.available && !th.awaitingLoadStore

/-- The effect of `exists_non_memory_access` for the thread it found. -/
def scheduleNonMemoryAccess (b : Builder) (i : Nat) : Builder :=
  let iid : IID := ⟨i, b.threadSize i⟩
  let b := b.pushEvent i { iid }
  { b with
    executionSequence := b.executionSequence ++ [iid]
    prefixState := b.prefixState ++ [none]
    prefixIdx := b.prefixIdx + 1
    currentThread := i }

/-! ## Replay -/

/-- `replay_non_memory_access`. -/
def replayNonMemoryAccess (b : Builder) (next : IID) : Builder :=
  { b.pushEvent next.pid { iid := next } with currentThread := next.pid }

/-- `replay_memory_access`, for an event of the state `state`. -/
def replayMemoryAccess (b : Builder) (next : IID) (state : Nat) : Builder :=
  let b := { b with
    enabled := b.enabled.erase next
    currentState := state
    currentThread := next.pid }
  let b := b.modifyThread next.pid fun th => { th with awaitingLoadStore := false }
  let b := b.performAccess (b.event next)
  if (b.stateAt state).leadHeadExecutionPrefix = some b.prefixIdx then
    { b with alphaHead := b.prefixIdx }
  else b

/-- `replay_schedule`. -/
def replaySchedule (b : Builder) : Builder :=
  let next := b.executionSequence.getD b.prefixIdx default
  let b := match b.prefixStateAt b.prefixIdx with
    | none => b.replayNonMemoryAccess next
    | some state => b.replayMemoryAccess next state
  { b with prefixIdx := b.prefixIdx + 1 }

/-! ## Schedule -/

/-- The step of `schedule` at the replay point, up to the call of
`execute_next_lead`. -/
def enterReplayPoint (b : Builder) : Builder :=
  let state := (b.prefixStateAt b.prefixIdx).getD 0
  let b := { b with
    currentState := state
    executionSequence := b.executionSequence.dropLast
    prefixState := b.prefixState.dropLast
    alphaHead := b.prefixIdx }
  b.modifyState state fun s => { s with leadHeadExecutionPrefix := some b.prefixIdx }

/-- `schedule`: the thread to run, or `none` at the end of the execution. -/
def schedule (env : Env) (b : Builder) : Option (Builder × Option Nat) := do
  if b.isReplaying then
    let b := b.replaySchedule
    return (b, some b.currentThread)
  else if b.atReplayPoint then
    let b := b.enterReplayPoint.executeNextLead
    return (b, some b.currentThread)
  else
    match b.existsNonMemoryAccess with
    | some i => return (b.scheduleNonMemoryAccess i, some i)
    | none =>
      if b.enabled = [] then return (b, none)
      else
        let b ← b.makeNewState.computeNewLeads env
        if (b.stateAt b.currentState).hasUnexploredLeads then
          let b := b.executeNextLead
          return (b, some b.currentThread)
        else return (b, none)

/-! ## Events from the interpreter -/

/-- Replace the event that `exists_non_memory_access` added for the current
thread by `e`. -/
def replaceLastEvent (b : Builder) (e : Event) : Builder :=
  let b := b.popEvent b.currentThread
  let e := { e with iid := ⟨b.currentThread, b.threadSize b.currentThread⟩ }
  let b := b.pushEvent b.currentThread e
  { b with
    currentEvent := e
    executionSequence := b.executionSequence.dropLast ++ [e.iid] }

/-- `CPS.spawn(c)`. -/
def spawnCPid (b : Builder) (c : CPid) : Builder × CPid :=
  let n := getD b.cps c 0
  ({ b with cps := insert b.cps c (n + 1) }, c ++ [n])

/-- `spawn`. -/
def spawn (b : Builder) : Builder :=
  let event := Event.makeSpawn b.threads.length
  let b := b.replaceLastEvent event
  let b := { b with toContainer := b.toContainer.updateSpawnSummary b.currentEvent }
  let (b, cpid) := b.spawnCPid (b.threads.getD b.currentThread default).cpid
  { b with threads := b.threads ++ [({ cpid } : Thread)] }

/-- `join`. -/
def join (b : Builder) (tgt : Nat) : Builder :=
  let b := b.replaceLastEvent (Event.makeJoin tgt)
  { b with toContainer := b.toContainer.updateJoinSummary b.currentEvent }

/-- Enable a global access of the current thread that was peeked. -/
def enableEvent (b : Builder) (e : Event) : Builder :=
  let t := b.currentThread
  let e := { e with iid := ⟨t, b.threadSize t⟩ }
  let b := b.modifyThread t fun th =>
    { th with events := th.events ++ [e], awaitingLoadStore := true }
  { b with currentEvent := e, enabled := b.enabled ++ [e.iid] }

/-- `load`. -/
def load (b : Builder) (a : SymAddrSize) : Builder :=
  let e := Event.makeRead a
  let e := { e with value := b.memAt e.object }
  if e.isGlobal then b.enableEvent e else b.replaceLastEvent e

/-- `atomic_store`, and `store`, which has the same body. -/
def atomicStore (b : Builder) (a : SymAddrSize) (written : List UInt8) :
    Builder :=
  let e := Event.makeWrite a written
  if e.isGlobal then b.enableEvent e else b.replaceLastEvent e

/-- `set_rmw_operation(op, val)`. -/
def setRmwOperation (b : Builder) (op : RMWOperation) (val : Value) : Builder :=
  { b with currentRmwOperation := (op, val) }

/-- `set_rmw_operation(CMPXCHG, expected, xchg)`. -/
def setCmpxchgOperation (b : Builder) (expected xchg : Value) : Builder :=
  { b with
    currentRmwOperation := (.cmpxchg, xchg)
    currentCmpxchgExpectedValue := expected }

/-- The last event of the current thread. -/
def lastThreadEvent (b : Builder) : Event :=
  ((b.threads.getD b.currentThread default).events.getLast?).getD default

/-- `enable_rmw`. -/
def enableRmw (b : Builder) (a : SymAddrSize) : Builder :=
  let b := b.load a
  let mark (e : Event) : Event :=
    { e with
      isRmw := true
      rmwOperation := b.currentRmwOperation.1
      rmwValue := b.currentRmwOperation.2
      expectedValue := if b.currentRmwOperation.1 = .cmpxchg then
          b.currentCmpxchgExpectedValue else e.expectedValue }
  let b := b.modifyEvent b.currentEvent.iid mark
  { b with currentEvent := mark b.currentEvent }

/-- The write event that `complete_rmw` builds behind the rmw read `read`. -/
def rmwWriteEvent (b : Builder) (a : SymAddrSize) (written : List UInt8) :
    Event :=
  let read := b.lastThreadEvent
  let e := Event.makeWrite a written
  { e with
    iid := ⟨b.currentThread, b.threadSize b.currentThread⟩
    isRmw := true
    rmwOperation := read.rmwOperation
    rmwValue := read.rmwValue
    expectedValue := if read.rmwOperation = .cmpxchg then read.expectedValue
      else e.expectedValue }

/-- The part of `complete_rmw` that adds the write to the alpha lead and to
the backward leads of its read. -/
def addWriteToLeads (b : Builder) (read write : IID) : Builder :=
  let head := (b.stateAt b.currentState).leadHeadExecutionPrefix.getD 0
  let state := (b.prefixStateAt head).getD 0
  let b := b.modifyState state fun s =>
    match s.alpha with
    | some a =>
      { s with leads := s.leads.modify a (·.addRmwWrite b.toContainer read write) }
    | none => s
  b.modifyState b.currentState fun s =>
    { s with
      eiLeads := s.eiLeads.map fun e =>
        (e.1, e.2.map (·.updatePendingRmwWrite b.toContainer write)) }

/-- `complete_rmw`. -/
def completeRmw (env : Env) (b : Builder) (a : SymAddrSize)
    (written : List UInt8) : Option Builder := do
  let read := b.lastThreadEvent.iid
  let event := b.rmwWriteEvent a written
  let b := { b.pushEvent b.currentThread event with currentEvent := event }
  let b := b.addWriteToLeads read event.iid
  let b ← if b.isReplaying then some b
    else do
      let b ← b.updateLeads env event b.forbidden
      pure { b with
        executionSequence := b.executionSequence ++ [event.iid]
        prefixState := b.prefixState ++ [some b.currentState] }
  return { b with
    lastWrite := insert b.lastWrite event.object event.iid
    mem := insert b.mem event.object event.value
    prefixIdx := b.prefixIdx + 1 }

/-- The rmw was peeked before: the last event of the thread has the symbolic
event of its load. -/
def peeked (b : Builder) (a : SymAddrSize) : Bool :=
  b.lastThreadEvent.symEvent.any (SymEv.load a).same

/-- The branch of `atomic_rmw` and `compare_exchange` for an object that is
not global: both events replace the last one. -/
def localRmw (b : Builder) (a : SymAddrSize) (written : List UInt8)
    (success : Bool) : Builder :=
  let read := Event.makeRead a
  let read := { read with value := b.memAt read.object, isRmw := true }
  let b := b.replaceLastEvent read
  let write := Event.makeWrite a written
  let write := { write with
    isRmw := true
    iid := ⟨b.currentThread, b.threadSize b.currentThread⟩
    value := if success then write.value else read.value }
  let b := b.pushEvent b.currentThread write
  { b with executionSequence := b.executionSequence ++ [write.iid] }

/-- `atomic_rmw`. -/
def atomicRmw (env : Env) (b : Builder) (a : SymAddrSize)
    (written : List UInt8) : Option Builder :=
  if a.block.isGlobal then
    if b.peeked a then b.completeRmw env a written
    else some (b.enableRmw a)
  else some (b.localRmw a written true)

/-- `compare_exchange`. -/
def compareExchange (env : Env) (b : Builder) (a : SymAddrSize)
    (written : List UInt8) (success : Bool) : Option Builder :=
  if a.block.isGlobal then
    if b.peeked a then do
      let read := b.lastThreadEvent
      let prev := getD b.lastWrite b.currentEvent.object default
      let b ← b.completeRmw env a written
      if success then return b
      else
        -- restore the original value read
        let b := b.modifyEvent b.currentEvent.iid
          fun e => { e with value := read.value }
        return { b with
          lastWrite := insert b.lastWrite b.currentEvent.object prev
          mem := insert b.mem b.currentEvent.object read.value }
    else some (b.enableRmw a)
  else some (b.localRmw a written success)

/-! ## Reset -/

/-- The `rv_map` of `record_redundant`. -/
def readValues (b : Builder) : Map IID Value :=
  ((b.executionSequence.zip b.prefixState).filter (·.2.isSome)).foldl
    (fun m p => if (b.event p.1).isRead then insert m p.1 (b.event p.1).value
      else m) []

/-- `record_redundant`. -/
def recordRedundant (b : Builder) : Builder :=
  let rv := b.readValues
  let summary := b.exploredSequencesSummary
  let i := summary.findIdx (Lead.sameReadValues · rv)
  { b with
    exploredSequencesSummary := summary ++ [rv]
    redundant := if i < summary.length then
        modify b.redundant (i + 1) [] (· ++ [summary.length + 1])
      else b.redundant }

/-- `finish_up_lead`. -/
def finishUpLead (env : Env) (b : Builder) (state : Nat) : Option Builder := do
  let b ← b.addEWLeads env state
  let event := b.executionSequence.getD (b.stateAt state).sequencePrefix default
  return { b with coveredReadValues := erase b.coveredReadValues event }

/-- `finish_up_state`. -/
def finishUpState (env : Env) (b : Builder) (state : Nat) : Option Builder :=
  let eiLeads := (b.stateAt state).eiLeads
  (env.stateOrder (eiLeads.map (·.1))).foldlM
    (fun b i => b.union env i (getD eiLeads i [])) b

/-- `find_replay_state_prefix`, over the first `n` states from the last one
down. -/
def findReplayStatePrefix (env : Env) :
    Nat → Builder → Option (Builder × Option Nat)
  | 0, b => some (b, none)
  | n + 1, b => do
    let b ← b.finishUpLead env n
    if (b.stateAt n).hasUnexploredLeads then return (b, some n)
    else
      let b ← b.finishUpState env n
      findReplayStatePrefix env n b

/-- The part of `reset` behind the search, for the replay state `state`. -/
def restart (b : Builder) (state : Nat) : Builder :=
  let point := (b.stateAt state).sequencePrefix
  { b with
    executionSequence := b.executionSequence.take (point + 1)
    prefixState := b.prefixState.take (point + 1)
    states := b.states.take (state + 1)
    toExplore := []
    threads := [{}]
    mem := []
    lastWrite := []
    forbidden := (b.stateAt state).forbidden
    prefixIdx := 0
    replayPoint := some point }

/-- `reset`: the new builder, and whether there is another execution to
explore. -/
def reset (env : Env) (b : Builder) : Option (Builder × Bool) := do
  let b := if b.checkOptimality then b.recordRedundant else b
  match ← b.findReplayStatePrefix env b.states.length with
  | (b, none) => return ({ b with replayPoint := none }, false)
  | (b, some state) => return (b.restart state, true)

end Builder

end ViEqui
