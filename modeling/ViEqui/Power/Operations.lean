import ViEqui.Power.Event
import Mathlib.Data.Nat.Basic
import Mathlib.Order.RelClasses

/-!
# What the interpreter tells the trace builder

The calls that fetch an event, register its addresses and data, and fetch
dependencies and fences.  A call gives `none` where an assertion of the source
fails.
-/

namespace ViEqui.Power

/-- `FenceType`. -/
inductive FenceType where
  | isync
  | eieio
  | lwsync
  | sync
deriving DecidableEq, Repr

namespace PAEvent

/-- `accesses[i]`. -/
def access (evt : PAEvent) (i : Nat) : Access := evt.accesses.getD i { type := .load }

/-- `has_load_req`. -/
def hasLoadReq (evt : PAEvent) : Bool := (evt.accesses.take evt.loadCount).any (·.loadReq.isSome)

/-- What `fetch` makes of an event that is there already, where `new` is the event
without it. -/
def refill (evt new : PAEvent) : PAEvent :=
  match evt.filledStatus with
  | .empty => new
  | .parameter =>
    { new with
      curParam := evt.curParam
      curBranch := evt.curBranch
      newBranches := evt.newBranches
      branchStart := evt.branchStart
      branchEnd := evt.branchEnd
      recalcParams := evt.recalcParams
      recalcParamsLoadSrc := evt.recalcParamsLoadSrc }
  | .complete =>
    { evt with
      unknownAddrCount := new.unknownAddrCount
      unknownDataCount := new.unknownDataCount
      eieioIdxAfter := -1
      lwsyncIdxAfter := -1
      syncIdxAfter := -1
      accesses := new.accesses
      baccesses := []
      accessTgts := ∅
      clockIndex := new.clockIndex
      cbBwd := new.cbBwd
      polocBwdComputed := false }

/-- The assertions of `fetch` about that event. -/
def Refillable (evt new : PAEvent) : Prop :=
  match evt.filledStatus with
  | .empty => True
  | .parameter => evt.newParams.isEmpty
  | .complete =>
    evt.loadCount = new.loadCount ∧ evt.hasLoad = new.hasLoad ∧ evt.hasStore = new.hasStore ∧
      evt.addrDeps = new.addrDeps ∧ evt.dataDeps = new.dataDeps ∧
      evt.eieioIdxBefore = new.eieioIdxBefore ∧ evt.lwsyncIdxBefore = new.lwsyncIdxBefore ∧
      evt.syncIdxBefore = new.syncIdxBefore ∧ evt.recalcParams = .no

instance (evt new : PAEvent) : Decidable (evt.Refillable new) := by
  unfold Refillable
  split <;> infer_instance

/-- Access `k` is another one than `a`, and goes to the byte `p`. -/
def overlaps (evt : PAEvent) (a p k : Nat) : Bool :=
  k ≠ a && (evt.access k).addrKnown && (evt.access k).addr.includes p

/-- Sets the data of the first store to the byte `p`. -/
def writeByte (evt : PAEvent) (p : Nat) (d : UInt8) : PAEvent :=
  let j := evt.baccesses.findIdx fun B => B.type = .store && B.addr = p
  { evt with baccesses := evt.baccesses.modify j fun B => { B with data := d, dataKnown := true } }

/-- Enters byte `i` of access `a`, whose address is registered. -/
def registerByte (a : Nat) (evt : PAEvent) (i : Nat) : PAEvent :=
  let A := evt.access a
  let p := A.addr.ref + i
  let evt := { evt with accessTgts := evt.accessTgts.insert p }
  match A.type with
  | .load =>
    if (List.range evt.loadCount).any (evt.overlaps a p) then evt
    else { evt with baccesses := evt.baccesses ++ [{ type := .load, addr := p }] }
  | .store =>
    -- the last other store to the byte
    match ((List.range evt.accesses.length).filter fun k =>
        evt.loadCount ≤ k && evt.overlaps a p k).getLast? with
    | none =>
      let B : ByteAccess := if A.dataKnown then
        { type := .store, addr := p, data := A.data.getD i 0, dataKnown := true }
        else { type := .store, addr := p }
      { evt with baccesses := evt.baccesses ++ [B] }
    | some k => if k < a ∧ A.dataKnown then evt.writeByte p (A.data.getD i 0) else evt

def registerAddr (evt : PAEvent) (a : Nat) (addr : MRef) : PAEvent :=
  (List.range addr.size).foldl (registerByte a)
    { evt with
      accesses := evt.accesses.modify a fun A => { A with addr, addrKnown := true }
      unknownAddrCount := evt.unknownAddrCount - 1 }

/-- Byte `i` of access `a` is not overwritten by a later store. -/
def writes (evt : PAEvent) (a i : Nat) : Bool :=
  !(List.range evt.accesses.length).any fun k =>
    a < k && (evt.access k).addrKnown && (evt.access k).addr.includes ((evt.access a).addr.ref + i)

def registerData (evt : PAEvent) (a : Nat) (data : List UInt8) : PAEvent :=
  let evt := { evt with
    accesses := evt.accesses.modify a fun A => { A with data, dataKnown := true }
    unknownDataCount := evt.unknownDataCount - 1 }
  if (evt.access a).addrKnown then
    (List.range (evt.access a).addr.size).foldl (fun evt i =>
      if evt.writes a i then evt.writeByte ((evt.access a).addr.ref + i) (data.getD i 0)
      else evt) evt
  else evt

end PAEvent

namespace TB

/-- How far the first events of a thread satisfy `p`, from `k` on. -/
def advance (tb : TB) (proc : Nat) (p : PAEvent → Bool) (k : Nat) : Nat :=
  k + ((((tb.fch.getD proc []).take (tb.thread proc).fchCount).drop k).takeWhile p).length

/-- `update_committed_prefix`. -/
def updateCommittedPrefix (tb : TB) (proc : Nat) : TB :=
  tb.modifyThread proc fun T =>
    { T with committedPrefix := tb.advance proc PAEvent.committed T.committedPrefix }

/-- `update_addr_known_prefix`. -/
def updateAddrKnownPrefix (tb : TB) (proc : Nat) : TB :=
  tb.modifyThread proc fun T =>
    { T with addrKnownPrefix := tb.advance proc (·.unknownAddrCount = 0) T.addrKnownPrefix }

def spawn (tb : TB) (proc : Nat) : Option TB :=
  if proc < tb.threads.length then
    some { tb with fch := tb.fch ++ [[]], threads := tb.threads ++ [{}] }
  else none

def abort (tb : TB) : TB := { tb with isAborted := true }

/-- Enters `evts`, whose event at the end of what is fetched is a new one, into a
thread. -/
def enter (tb : TB) (proc : Nat) (evts : List PAEvent) : TB :=
  let T := tb.thread proc
  let evts := evts.modify T.fchCount fun evt =>
    { evt with
      iid := ⟨proc, T.fchCount + 1⟩
      ctrlDeps := T.ctrlDeps
      ctrlIsyncDeps := T.ctrlIsyncDeps }
  { tb with
    fch := tb.fch.set proc evts
    threads := tb.threads.modify proc fun T => { T with fchCount := T.fchCount + 1 }
    fetchCount := tb.fetchCount + 1
    uncommittedNonblockingCount := tb.uncommittedNonblockingCount + 1
    nextClockIndex := tb.nextClockIndex + 1 }

/-- The event that a thread would fetch next, if it were not there already. -/
def newEvent (tb : TB) (proc loadCount storeCount : Nat) (addrDeps dataDeps : VecSet Nat) :
    PAEvent :=
  let T := tb.thread proc
  .new loadCount storeCount addrDeps dataDeps T.lastFetchedEieioIdx T.lastFetchedLwsyncIdx
    T.lastFetchedSyncIdx tb.nextClockIndex

/-- `fetch`. -/
def fetch (tb : TB) (proc loadCount storeCount : Nat) (addrDeps dataDeps : VecSet Nat) :
    Option TB :=
  let n := (tb.thread proc).fchCount
  let evts := tb.fch.getD proc []
  let new := tb.newEvent proc loadCount storeCount addrDeps dataDeps
  if proc < tb.threads.length ∧ tb.threads.length ≤ tb.fch.length then
    if n < evts.length then
      if (evts.getD n {}).Refillable new then
        some ((tb.enter proc (evts.modify n fun evt => evt.refill new)).updateAddrKnownPrefix proc)
      else none
    else if n = evts.length then
      some ((tb.enter proc (evts ++ [new])).updateAddrKnownPrefix proc)
    else none
  else none

/-- `register_addr`. -/
def registerAddr (tb : TB) (iid : IID) (a : Nat) (addr : MRef) : Option TB :=
  let evt := tb.getEvt iid
  if a < evt.accesses.length ∧ (evt.access a).addrKnown = false then
    some ((tb.modifyEvt iid fun evt => evt.registerAddr a addr).updateAddrKnownPrefix iid.pid)
  else none

/-- `register_data`. -/
def registerData (tb : TB) (iid : IID) (a : Nat) (data : List UInt8) : Option TB :=
  let evt := tb.getEvt iid
  if evt.loadCount ≤ a ∧ a < evt.accesses.length ∧ (evt.access a).type = .store ∧
      (evt.access a).dataKnown = false ∧
      -- the byte access that is written is there
      ((evt.access a).addrKnown → ∀ i ∈ List.range (evt.access a).addr.size, evt.writes a i →
        ∃ B ∈ evt.baccesses, B.type = .store ∧ B.addr = (evt.access a).addr.ref + i) then
    some (tb.modifyEvt iid fun evt => evt.registerData a data)
  else none

/-- `register_load_requirement`. -/
def registerLoadRequirement (tb : TB) (iid : IID) (a : Nat) (f : List UInt8 → Bool) : Option TB :=
  let evt := tb.getEvt iid
  if a < evt.loadCount ∧ (evt.access a).loadReq.isNone then
    some { tb.modifyEvt iid fun evt =>
        { evt with accesses := evt.accesses.modify a fun A => { A with loadReq := some f } } with
      uncommittedNonblockingCount := if evt.hasLoadReq then tb.uncommittedNonblockingCount
        else tb.uncommittedNonblockingCount - 1 }
  else none

/-- `fetch_ctrl`. -/
def fetchCtrl (tb : TB) (proc : Nat) (deps : VecSet Nat) : Option TB :=
  if proc < tb.threads.length then
    some (tb.modifyThread proc fun T => { T with ctrlDeps := T.ctrlDeps.insertAll deps })
  else none

/-- Changes the fetched events of a thread that no fence of the kind follows yet. -/
def modifySince (tb : TB) (proc : Nat) (last : Int) (f : PAEvent → PAEvent) : TB :=
  let n := (tb.thread proc).fchCount
  { tb with fch := tb.fch.modify proc fun evts =>
      evts.mapIdx fun i evt => if max 0 last ≤ i ∧ i < n then f evt else evt }

/-- `fetch_fence`. -/
def fetchFence (tb : TB) (proc : Nat) (type : FenceType) : TB :=
  let T := tb.thread proc
  let idx := T.fchCount
  match type with
  | .isync => tb.modifyThread proc fun T =>
      { T with ctrlIsyncDeps := T.ctrlIsyncDeps.insertAll T.ctrlDeps, ctrlDeps := ∅ }
  | .eieio =>
    let tb := tb.modifySince proc T.lastFetchedEieioIdx fun evt => { evt with eieioIdxAfter := idx }
    tb.modifyThread proc fun T => { T with lastFetchedEieioIdx := idx }
  | .lwsync =>
    let tb := tb.modifySince proc T.lastFetchedLwsyncIdx fun evt =>
      { evt with lwsyncIdxAfter := idx }
    tb.modifyThread proc fun T => { T with lastFetchedLwsyncIdx := idx }
  | .sync =>
    let tb := tb.modifySince proc T.lastFetchedSyncIdx fun evt => { evt with syncIdxAfter := idx }
    tb.modifyThread proc fun T => { T with lastFetchedSyncIdx := idx }

end TB

end ViEqui.Power
