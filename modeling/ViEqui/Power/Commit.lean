import ViEqui.Power.Populate

/-!
# Committing and scheduling events

`schedule` commits the next event of the prefix, or the first one that can be
committed.  A commit chooses a parameter, enters its relations into the other events,
and looks for loads that race with the stores of the event: each of them gives a
branch to explore later.  `reset` sets up the prefix for the next computation.
-/

namespace ViEqui.Power

/-! ## Branches as elements of a set -/

/-- `operator<` of `Choice`. -/
def Choice.lt (a b : Choice) : Bool :=
  if a.isCoherenceChoice ≠ b.isCoherenceChoice then a.isCoherenceChoice
  else if a.isCoherenceChoice then a.coPos < b.coPos
  else a.src < b.src

/-- The lexicographic order of vectors. -/
def lexLt {α : Type} (lt : α → α → Bool) : List α → List α → Bool
  | _, [] => false
  | [], _ :: _ => true
  | a :: as, b :: bs => lt a b || !lt b a && lexLt lt as bs

/-- `operator<` of `PEvent`. -/
def PEvent.lt (a b : PEvent) : Bool :=
  a.iid < b.iid || a.iid = b.iid && lexLt Choice.lt a.choices b.choices

/-- `operator<` of `Branch`. -/
def Branch.lt (A B : Branch) : Bool :=
  if A.paramType ≠ B.paramType then A.paramType = .wr
  else if A.branch.length ≠ B.branch.length then A.branch.length < B.branch.length
  else lexLt PEvent.lt A.branch B.branch

/-- Enters a branch at its place, unless it is there already. -/
def insertBranch (B : Branch) : List Branch → List Branch
  | [] => [B]
  | A :: L => if B.lt A then B :: A :: L else if A.lt B then A :: insertBranch B L else A :: L

/-- `Mem::commit`; `none` outside of the coherence order. -/
def Mem.commit (m : Mem) (iid : IID) (A : ByteAccess) (C : Choice) : Option Mem :=
  match A.type with
  | .store =>
    if 0 ≤ C.coPos ∧ C.coPos ≤ m.coherence.length then
      some {
        coherence := m.coherence.insertIdx C.coPos.toNat iid
        loads := m.loads.insertIdx (C.coPos.toNat + 1) ∅ }
    else none
  | .load =>
    if C.src.idx = 0 then some { m with loads := m.loads.modify 0 fun L => L.insert iid }
    else if C.src ∈ m.coherence then
      some { m with loads := m.loads.modify (m.coherence.idxOf C.src + 1) fun L => L.insert iid }
    else none

namespace TB

/-! ## What can be committed -/

/-- The loop of `compute_poloc_bwd` over the earlier events; `A` are the bytes that
have no closer access. -/
def polocBwdLoop (tb : TB) (proc : Nat) : List Nat → VecSet Nat → VecSet IID → VecSet IID
  | [], _, bwd => bwd
  | i :: is, A, bwd =>
    if A = ∅ then bwd
    else
      let evt := tb.fchAt proc i
      let rest := A.eraseAll evt.accessTgts
      tb.polocBwdLoop proc is rest
        (if rest.vec.length < A.vec.length then bwd.insert evt.iid else bwd)

/-- `compute_poloc_bwd`.  `committable` has checked what it asserts. -/
def computePolocBwd (tb : TB) (iid : IID) : TB :=
  let evt := tb.getEvt iid
  if evt.polocBwdComputed then tb
  else tb.modifyEvt iid fun evt =>
    { evt with
      rel := { evt.rel with poloc := { evt.rel.poloc with
        bwd := tb.polocBwdLoop iid.pid (List.range (iid.idx - 1)).reverse evt.accessTgts
          evt.rel.poloc.bwd } }
      polocBwdComputed := true }

/-- The assertions of `committable`. -/
def DepsCommitted (tb : TB) (iid : IID) : Prop :=
  let evt := tb.getEvt iid
  (∀ i ∈ evt.addrDeps.vec, (tb.fchAt iid.pid (i - 1)).committed = true) ∧
    (∀ i ∈ evt.dataDeps.vec, (tb.fchAt iid.pid (i - 1)).committed = true) ∧
    (∀ A ∈ evt.accesses, A.addrKnown ∧ (A.type ≠ .store ∨ A.dataKnown)) ∧
    ∀ A ∈ evt.baccesses, A.type ≠ .store ∨ A.dataKnown

instance (tb : TB) (iid : IID) : Decidable (tb.DepsCommitted iid) :=
  inferInstanceAs (Decidable (_ ∧ _ ∧ _ ∧ _))

/-- `committable`, with the state that it leaves. -/
def committable (cfg : Config) (tb : TB) (iid : IID) : Option (Bool × TB) :=
  let evt := tb.getEvt iid
  let T := tb.thread iid.pid
  if evt.committed ∨ ¬ evt.allAddrAndDataKnown then some (false, tb)
  else if tb.DepsCommitted iid then
    if T.addrKnownPrefix < iid.idx ∨ T.committedPrefix < evt.syncIdxBefore ∨
        T.committedPrefix < evt.lwsyncIdxBefore then some (false, tb)
    else match cfg.model with
      | .arm => some (true, tb)
      | .power =>
        let tb := tb.computePolocBwd iid
        some ((tb.getEvt iid).rel.poloc.bwd.vec.all fun e => (tb.getEvt e).committed, tb)
  else none

/-! ## Commit -/

/-- The scan of `compute_cb` over the earlier events, where `snc` is the last lwsync or
sync. -/
def cbScan (tb : TB) (proc : Nat) (snc : Int) : List Nat → BVClock → BVClock
  | [], cb => cb
  | i :: is, cb =>
    let evt := tb.fchAt proc i
    if i < snc then
      if evt.lwsyncIdxBefore = i ∨ evt.syncIdxBefore = i then cb.add evt.cbBwd
      else tb.cbScan proc snc is (cb.add evt.cbBwd)
    else tb.cbScan proc snc is
      (evt.addrDeps.vec.foldl (fun cb j => cb.add (tb.fchAt proc (j - 1)).cbBwd) cb)

/-- `compute_cb`. -/
def computeCb (cfg : Config) (tb : TB) (iid : IID) (includeRf : Bool) : BVClock :=
  let evt := tb.getEvt iid
  let addDeps (cb : BVClock) (deps : VecSet Nat) : BVClock :=
    deps.vec.foldl (fun cb i => cb.add (tb.fchAt iid.pid (i - 1)).cbBwd) cb
  let addEvts (cb : BVClock) (es : VecSet IID) : BVClock :=
    es.vec.foldl (fun cb e => cb.add (tb.getEvt e).cbBwd) cb
  let cb := BVClock.set {} evt.clockIndex
  let cb := addDeps (addDeps cb evt.addrDeps) evt.dataDeps
  let cb := addDeps (addDeps cb evt.ctrlDeps) evt.ctrlIsyncDeps
  let cb := if includeRf then addEvts cb evt.rel.rf.bwd else cb
  let cb := tb.cbScan iid.pid (max evt.lwsyncIdxBefore evt.syncIdxBefore)
    (List.range (iid.idx - 1)).reverse cb
  if cfg.model = .power then addEvts cb evt.rel.poloc.bwd else cb

/-- One of the relations of an event, and how it is changed. -/
structure RelField where
  get : Relations → Rel
  modify : (Rel → Rel) → Relations → Relations

/-- The relations in the order in which `return_relations` goes over them. -/
def relFields : List RelField :=
  [⟨Relations.rf, fun f R => { R with rf := f R.rf }⟩,
    ⟨Relations.co, fun f R => { R with co := f R.co }⟩,
    ⟨Relations.com, fun f R => { R with com := f R.com }⟩,
    ⟨Relations.poloc, fun f R => { R with poloc := f R.poloc }⟩,
    ⟨Relations.ii0, fun f R => { R with ii0 := f R.ii0 }⟩,
    ⟨Relations.ci0, fun f R => { R with ci0 := f R.ci0 }⟩,
    ⟨Relations.cc0, fun f R => { R with cc0 := f R.cc0 }⟩,
    ⟨Relations.hb, fun f R => { R with hb := f R.hb }⟩,
    ⟨Relations.prop, fun f R => { R with prop := f R.prop }⟩]

/-- Changes a relation of an event. -/
def modifyRel (tb : TB) (r : RelField) (e : IID) (f : Rel → Rel) : TB :=
  tb.modifyEvt e fun evt => { evt with rel := r.modify f evt.rel }

/-- Returns one relation. -/
def returnRelation (iid : IID) (tb : TB) (r : RelField) : TB :=
  let R := r.get (tb.getEvt iid).rel
  let tb := R.fwd.vec.foldl
    (fun tb e => tb.modifyRel r e fun S => { S with bwd := S.bwd.insert iid }) tb
  R.bwd.vec.foldl (fun tb e => tb.modifyRel r e fun S => { S with fwd := S.fwd.insert iid }) tb

/-- `return_relations`: enters the relations of an event into the other events. -/
def returnRelations (tb : TB) (iid : IID) : TB := relFields.foldl (returnRelation iid) tb

/-- Enters the pair into both events. -/
def link (r : RelField) (tb : TB) (ab : IID × IID) : TB :=
  (tb.modifyRel r ab.1 fun S => { S with fwd := S.fwd.insert ab.2 }).modifyRel r ab.2
    fun S => { S with bwd := S.bwd.insert ab.1 }

/-- The extra edges of hb. -/
def ExtraHB.pairs (EHB : ExtraHB) : List (IID × IID) :=
  (EHB.afterI.vec.flatMap fun b => EHB.I.vec.map fun a => (a, b)) ++
    EHB.afterC.vec.flatMap fun b => EHB.C.vec.map fun a => (a, b)

/-- `setup_relations_cur_param`; `none` where an event of an extra edge is not
committed. -/
def setupRelations (cfg : Config) (tb : TB) (iid : IID) : Option TB :=
  let P := (tb.getEvt iid).curParam
  let hb := ExtraHB.pairs P.ER.EHB
  if ∀ ab ∈ hb ++ P.ER.prop,
      (tb.getEvt ab.1).committed = true ∧ (tb.getEvt ab.2).committed = true then
    let tb := (tb.modifyEvt iid fun evt => { evt with rel := P.rel }).returnRelations iid
    let tb := hb.foldl (link ⟨Relations.hb, fun f R => { R with hb := f R.hb }⟩) tb
    let tb := P.ER.prop.foldl (link ⟨Relations.prop, fun f R => { R with prop := f R.prop }⟩) tb
    some (tb.modifyEvt iid fun evt => { evt with cbBwd := tb.computeCb cfg iid true })
  else none

/-- Commits one byte access. -/
def commitByte (iid : IID) (tb : TB) (BC : ByteAccess × Choice) : Option TB :=
  ((tb.mem BC.1.addr).commit iid BC.1 BC.2).map fun m =>
    { tb with mem := Function.update tb.mem BC.1.addr m }

/-- Updates the memory. -/
def commitMem (tb : TB) (iid : IID) : Option TB :=
  let evt := tb.getEvt iid
  if evt.baccesses.length = evt.curParam.choices.length then
    (evt.baccesses.zip evt.curParam.choices).foldlM (commitByte iid) tb
  else none

/-! ## Races -/

/-- The event looks like the lock of a mutex. -/
def isMutexLock (evt : PAEvent) : Bool :=
  evt.baccesses.length = 2 && evt.accesses.length = 2 && evt.loadCount = 1 &&
    (evt.baccesses[0]?.map ByteAccess.addr = evt.baccesses[1]?.map ByteAccess.addr) &&
    (evt.access 0).loadReq.isSome

/-- `prefix[i]`. -/
def prefixAt (tb : TB) (i : Nat) : IID := tb.execPrefix.getD i ⟨0, 0⟩

/-- cb without the edges of rf to the event; it is only used for locks. -/
def cbWithoutRf (cfg : Config) (tb : TB) (iid : IID) : BVClock :=
  if isMutexLock (tb.getEvt iid) then tb.computeCb cfg iid false else {}

/-- Both events are locks. -/
def lockRace (tb : TB) (w r : IID) : Bool :=
  isMutexLock (tb.getEvt w) && isMutexLock (tb.getEvt r)

/-- The load `r` could read from the store `w`. -/
def races (cfg : Config) (tb : TB) (w r : IID) : Bool :=
  let R := tb.getEvt r
  if r.pid = w.pid ∧ r.idx ≤ w.idx then false
  else if tb.lockRace w r then R.branchEnd < 0 && !(tb.cbWithoutRf cfg w).get R.clockIndex
  else !(tb.getEvt w).cbBwd.get R.clockIndex &&
    !(0 ≤ R.branchEnd && tb.prefixAt R.branchEnd.toNat ≠ r)

/-- The loads that race with `w`. -/
def conflicts (cfg : Config) (tb : TB) (w : IID) : VecSet IID :=
  .ofList ((((tb.getEvt w).baccesses.filter fun A => A.type = .store).flatMap fun A =>
    (tb.mem A.addr).loads.flatMap VecSet.vec).filter (tb.races cfg w))

/-- Where the branch for a race with `r` starts in the prefix. -/
def branchStartOf (tb : TB) (r : IID) : Nat :=
  let R := tb.getEvt r
  if 0 ≤ R.branchStart then R.branchStart.toNat else tb.execPrefix.idxOf r

/-- The event stays in the branch for the race of `w` with `r`. -/
def keeps (cfg : Config) (tb : TB) (w r e : IID) : Bool :=
  let clock := if tb.lockRace w r then tb.cbWithoutRf cfg w else (tb.getEvt w).cbBwd
  clock.get (tb.getEvt e).clockIndex

/-- `decrease_co_pos`: the choices of `e` without the stores of `removed`. -/
def decreaseCoPos (tb : TB) (removed : List IID) (e : IID) (choices : List Choice) :
    List Choice :=
  (tb.getEvt e).baccesses.zipIdx.foldl (fun cs (B, b) =>
    if B.type = .store then
      let n := (((tb.mem B.addr).coherence.takeWhile (· ≠ e)).filter (· ∈ removed)).length
      cs.modify b fun c => { c with coPos := c.coPos - n }
    else cs) choices

/-- Goes over the events from the start of the branch: those that stay, with their
choices, and the stores that are removed. -/
def branchStep (cfg : Config) (tb : TB) (w r : IID) (acc : List PEvent × List IID) (e : IID) :
    List PEvent × List IID :=
  if tb.keeps cfg w r e then
    (acc.1 ++ [{ iid := e
                 choices := tb.decreaseCoPos acc.2 e (tb.getEvt e).curParam.choices }], acc.2)
  else if (tb.getEvt e).hasStore then (acc.1, e :: acc.2)
  else acc

/-- The events that a branch for the race of `w` with `r` keeps. -/
def keptEvents (cfg : Config) (tb : TB) (w r : IID) : List PEvent :=
  (((tb.execPrefix.take tb.schedCount).drop (tb.branchStartOf r)).foldl
    (tb.branchStep cfg w r) ([], [])).1

/-- The branch for the race of `w` with `r`, before it is normalised. -/
def rawBranch (cfg : Config) (tb : TB) (w r : IID) : Branch :=
  if tb.lockRace w r then
    { branch := tb.keptEvents cfg w r ++ [{ iid := w }], paramType := .star }
  else { branch := tb.keptEvents cfg w r ++ [{ iid := w }, { iid := r }], paramType := .wr }

/-- The branch for the race of `w` with `r`. -/
def raceBranch (cfg : Config) (tb : TB) (w r : IID) : Branch :=
  tb.normaliseBranch (tb.rawBranch cfg w r)

/-- Enters the branch for the race of `w` with `r`, unless it has been explored. -/
def addRaceBranch (cfg : Config) (w : IID) (tb : TB) (r : IID) : TB :=
  let bnc := tb.raceBranch cfg w r
  let first := tb.prefixAt (tb.branchStartOf r)
  if (tb.getEvt first).branchStart < 0 ∨ (tb.getEvt first).curBranch.lt bnc then
    tb.modifyEvt first fun evt => { evt with newBranches := insertBranch bnc evt.newBranches }
  else tb

/-- `detect_rw_conflicts`. -/
def detectRwConflicts (cfg : Config) (tb : TB) (w : IID) : TB :=
  (tb.conflicts cfg w).vec.foldl (addRaceBranch cfg w) tb

/-! ## Schedule -/

/-- The new parameters that `commit` chooses from. -/
def selectParams (evt : PAEvent) (ps : List Param) : List Param :=
  match evt.recalcParams with
  | .no => ps
  | .star => ps
  | .load => ps.filter fun P => evt.recalcParamsLoadSrc ∈ P.rel.rf.bwd
  | .param => (ps.find? fun P => P.choices = evt.curParam.choices).toList

/-- The part of `commit` that calculates and chooses a parameter: `false` when there is
none. -/
def chooseParam (cfg : Config) (tb : TB) (iid : IID) (replay : Bool) : Option (Bool × TB) :=
  let evt := tb.getEvt iid
  if ¬ replay ∨ evt.recalcParams ≠ .no then
    (tb.populateParameters cfg iid).map fun ps =>
      let ps := selectParams evt ps
      match ps.getLast? with
      | none => (false, tb.modifyEvt iid fun evt => { evt with newParams := [] })
      | some P => (true, tb.modifyEvt iid fun evt =>
        { evt with curParam := P, newParams := ps.dropLast, recalcParams := .no })
  else some (true, tb)

/-- `commit`: the values of the loads, unless no parameter is allowed. -/
def commit (cfg : Config) (tb : TB) (iid : IID) (replay : Bool) :
    Option (Option (List (List UInt8)) × TB) := do
  let (chosen, tb) ← tb.chooseParam cfg iid replay
  if chosen then
    let tb ← tb.setupRelations cfg iid
    let values := tb.getLoadValues cfg iid (tb.getEvt iid).curParam.choices
    let tb := (← tb.commitMem iid).detectRwConflicts cfg iid
    let tb := tb.modifyEvt iid fun evt => { evt with committed := true }
    return (some values, { tb with
      uncommittedNonblockingCount := if (tb.getEvt iid).hasLoadReq then
        tb.uncommittedNonblockingCount else tb.uncommittedNonblockingCount - 1 })
  else return (none, tb.detectRwConflicts cfg iid)

/-- The events that `schedule` tries, in that order. -/
def candidates (tb : TB) : List IID :=
  (List.range tb.threads.length).flatMap fun p =>
    (List.range' (tb.thread p).committedPrefix
      ((tb.thread p).fchCount - (tb.thread p).committedPrefix)).map fun i => ⟨p, i + 1⟩

/-- What `schedule` gives: the event with the values of its loads, if one is
committed. -/
abbrev Scheduled := Option (IID × List (List UInt8))

/-- Commits the first event that can be committed. -/
def scheduleNew (cfg : Config) : List IID → TB → Option (Scheduled × TB)
  | [], tb => some (none, tb)
  | e :: es, tb => do
    let (ok, tb) ← tb.committable cfg e
    if ok then
      let (values, tb) ← tb.commit cfg e false
      match values with
      | some values =>
        let tb := tb.updateCommittedPrefix e.pid
        return (some (e, values), { tb with
          execPrefix := tb.execPrefix ++ [e]
          schedCount := tb.schedCount + 1 })
      | none => scheduleNew cfg es tb
    else scheduleNew cfg es tb

/-- `schedule`. -/
def schedule (cfg : Config) (tb : TB) : Option (Scheduled × TB) :=
  if tb.isAborted then some (none, tb)
  else if tb.schedCount < tb.execPrefix.length then do
    let e := tb.prefixAt tb.schedCount
    let (ok, tb) ← tb.committable cfg e
    if ok then
      let (values, tb) ← tb.commit cfg e true
      match values with
      | some values =>
        let tb := tb.updateCommittedPrefix e.pid
        return (some (e, values), { tb with schedCount := tb.schedCount + 1 })
      | none => return (none, tb)
    else none
  else scheduleNew cfg tb.candidates tb

/-! ## The next computation -/

/-- Clears the events of a computation, where those of `keep` stay. -/
def clearEvents (tb : TB) (keep : IID → PAEvent → Bool) : TB :=
  { tb with
    fch := tb.fch.mapIdx fun p evts => evts.mapIdx fun j evt =>
      if p < tb.threads.length ∧ j < (tb.thread p).fchCount then
        if keep ⟨p, j + 1⟩ evt then { evt with committed := false, accesses := [], baccesses := [] }
        else { evt with filledStatus := .empty }
      else evt }

/-- Clears the other data. -/
def clearData (tb : TB) : TB :=
  { tb with
    schedCount := 0
    fetchCount := 0
    threads := [{}]
    isAborted := false
    mem := fun _ => {}
    nextClockIndex := 0 }

/-- `replay`. -/
def replay (tb : TB) : TB := (tb.clearEvents fun _ evt => evt.committed).clearData

/-- The last event of the prefix with something to explore. -/
def resetIndex (tb : TB) : Option Nat :=
  ((List.range tb.execPrefix.length).filter fun i =>
    let evt := tb.getEvt (tb.prefixAt i)
    evt.newParams ≠ [] || evt.newBranches ≠ []).getLast?

/-- Chooses the next parameter of the event at position `i`; the state, and the length
of the new prefix. -/
def nextParam (tb : TB) (i : Nat) (P : Param) : Option (TB × Nat) :=
  let iid := tb.prefixAt i
  let evt := tb.getEvt iid
  let tb := tb.modifyEvt iid fun evt =>
    { evt with curParam := P, newParams := evt.newParams.dropLast }
  if 0 ≤ evt.branchStart then
    if evt.branchEnd = i then some (tb, i + 1)
    else if evt.branchEnd = i + 1 then
      -- the event is the store, and the load at the end of the branch follows
      let load := tb.getEvt (tb.prefixAt (i + 1))
      if load.newBranches = [] ∧ load.newParams = [] ∧ load.recalcParamsLoadSrc = iid then
        some (tb.modifyEvt (tb.prefixAt (i + 1)) fun evt =>
          { evt with recalcParams := .load, filledStatus := .parameter }, i + 2)
      else none
    else none
  else some (tb, i + 1)

/-- Sets up an event of a branch that is locked at position `i`. -/
def lockEvent (i : Nat) (B : Branch) (tb : TB) (P : PEvent) : TB :=
  tb.modifyEvt P.iid fun evt =>
    { evt with
      curParam := { choices := P.choices }
      branchStart := i
      branchEnd := i + B.branch.length - 1
      newBranches := []
      newParams := []
      filledStatus := .parameter
      recalcParams := .param }

/-- Sets up the end of a locked branch. -/
def lockTail (B : Branch) (tb : TB) : Option TB :=
  let n := B.branch.length
  let at' (k : Nat) : PEvent := B.branch.getD k { iid := ⟨0, 0⟩ }
  match B.paramType with
  | .wr =>
    if 2 ≤ n ∧ (at' (n - 2)).choices = [] ∧ (at' (n - 1)).choices = [] then
      let tb := tb.modifyEvt (at' (n - 2)).iid fun evt => { evt with recalcParams := .star }
      some (tb.modifyEvt (at' (n - 1)).iid fun evt =>
        { evt with recalcParams := .load, recalcParamsLoadSrc := (at' (n - 2)).iid })
    else none
  | .star =>
    if 1 ≤ n ∧ (at' (n - 1)).choices = [] then
      some (tb.modifyEvt (at' (n - 1)).iid fun evt => { evt with recalcParams := .star })
    else none

/-- Locks the branch `B` at position `i`; `rest` are the other ones. -/
def lockBranch (tb : TB) (i : Nat) (B : Branch) (rest : List Branch) : Option (TB × Nat) :=
  let n := i + B.branch.length
  let tb := tb.modifyEvt (tb.prefixAt i) fun evt => { evt with newBranches := [] }
  if ∀ P ∈ B.branch, (tb.getEvt P.iid).iid = P.iid then do
    let tb := { tb with
      execPrefix := tb.execPrefix.take i ++ B.branch.map PEvent.iid ++ tb.execPrefix.drop n }
    let tb ← lockTail B (B.branch.foldl (lockEvent i B) tb)
    -- `union_except_one`, and the branch itself
    return (tb.modifyEvt (tb.prefixAt i) fun evt =>
      { evt with newBranches := rest.foldl (fun L A => insertBranch A L) evt.newBranches
                 curBranch := B }, n)
  else none

/-- `reset`; inner `none` when nothing is left to explore. -/
def reset (tb : TB) : Option (Option TB) :=
  match tb.resetIndex with
  | none => some none
  | some i => do
    let evt := tb.getEvt (tb.prefixAt i)
    let (tb, n) ← match evt.newParams.getLast?, evt.newBranches with
      | some P, _ => tb.nextParam i P
      | none, B :: rest => tb.lockBranch i B rest
      | none, [] => none
    let keep := tb.execPrefix.take n
    return some { (tb.clearEvents fun e _ => e ∈ keep).clearData with
      execPrefix := keep
      uncommittedNonblockingCount := 0 }

end TB

end ViEqui.Power
