import ViEqui.RfscTrace
import ViEqui.Lib.VectorClock

/-!
# The saturated graph

`SaturatedGraph` keeps the events of a trace, the edges between them and a
clock for each event.  `add_event` records an event.  `saturate` derives the
edges that every execution with the same reads-from relation must have, until
nothing changes or a cycle shows up.

* `SaturatedGraph.addEvent`, `addEdge`: what a caller adds.
* `saturateEvent`, `saturateLoop`: the forward pass with its work queue.
* `reverseSaturate`: the backward pass for a graph that was saturated before.

`ins` and `outs` are indexed by the id of an event, which is its position.  A
map that the source iterates over has no order of its own, so `addEvent` takes
a `MapOrder`.
-/

namespace ViEqui.Saturation

open AssocMap VectorClock
open Rfsc (SymAddr)

/-- `EventKind`. -/
inductive EventKind where
  | none
  | store
  | load
  | rmw
deriving DecidableEq, Repr

def EventKind.isLoad (k : EventKind) : Bool := k = .load || k = .rmw

def EventKind.isStore (k : EventKind) : Bool := k = .store || k = .rmw

/-- `SaturatedGraph::Event`. -/
structure Event where
  pid : Nat
  index : Nat
  extId : IID
  isLoad : Bool
  isStore : Bool
  addr : SymAddr
  readFrom : Option Nat
  /-- the events that read from this one -/
  readers : List Nat
  poPredecessor : Option Nat
deriving DecidableEq, Repr, Inhabited

/-- `SaturatedGraph`. -/
structure SaturatedGraph where
  extidToId : Map IID Nat := []
  events : List Event := []
  ins : List (List Nat) := []
  outs : List (List Nat) := []
  /-- the first store of each process -/
  writesByAddress : Map SymAddr (Map Nat Nat) := []
  readsFromInit : Map SymAddr (List Nat) := []
  eventsByPid : List (List Nat) := []
  vclocks : List Clock := []
  writesByProcessAndAddress : List (Map SymAddr (List Nat)) := []
  saturatedUntil : Nat := 0
  wqQueue : List Nat := []
  wqSet : List Bool := []
deriving DecidableEq, Repr

/-- The order in which a hash map is enumerated. -/
structure MapOrder where
  order : Map Nat Nat → Map Nat Nat
  perm : ∀ m, (order m).Perm m

/-! ## Vectors -/

/-- `enlarge`: default elements up to the length `n`. -/
def enlarge {α : Type} (v : List α) (n : Nat) (d : α) : List α :=
  v ++ List.replicate (n - v.length) d

/-- `v.mut(i).push_back(x)`. -/
def pushAt {α : Type} (v : List (List α)) (i : Nat) (x : α) : List (List α) :=
  v.modify i (· ++ [x])

/-- The elements of a sorted vector before `std::upper_bound(x)`. -/
def upTo (v : List Nat) (x : Nat) : List Nat := v.takeWhile (· ≤ x)

/-- The elements of a sorted vector from `std::lower_bound(x)` on. -/
def startingAt (v : List Nat) (x : Nat) : List Nat := v.dropWhile (· < x)

namespace SaturatedGraph

/-! ## Accessors -/

def ev (g : SaturatedGraph) (id : Nat) : Event := g.events.getD id default

def inOf (g : SaturatedGraph) (id : Nat) : List Nat := g.ins.getD id []

def outOf (g : SaturatedGraph) (id : Nat) : List Nat := g.outs.getD id []

def clockOf (g : SaturatedGraph) (id : Nat) : Clock := g.vclocks.getD id []

def threadOf (g : SaturatedGraph) (pid : Nat) : List Nat :=
  g.eventsByPid.getD pid []

/-- `writes_by_process_and_address[pid][addr]`. -/
def writesOf (g : SaturatedGraph) (pid : Nat) (addr : SymAddr) : List Nat :=
  getD (g.writesByProcessAndAddress.getD pid []) addr []

/-! ## The work queue -/

/-- `wq_set[id]`, where a missing entry is false. -/
def queued (g : SaturatedGraph) (id : Nat) : Bool := g.wqSet.getD id false

/-- `wq_add`. -/
def wqAdd (g : SaturatedGraph) (id : Nat) : SaturatedGraph :=
  if g.queued id then g
  else
    { g with
      wqSet := (enlarge g.wqSet (id + 1) false).set id true
      wqQueue := g.wqQueue ++ [id] }

/-- `wq_add_first`. -/
def wqAddFirst (g : SaturatedGraph) (id : Nat) : SaturatedGraph :=
  if g.queued id then g
  else
    { g with
      wqSet := (enlarge g.wqSet (id + 1) false).set id true
      wqQueue := id :: g.wqQueue }

/-! ## Edges -/

/-- The edge in both vectors, without a look at the queue. -/
def recordEdge (g : SaturatedGraph) (src dst : Nat) : SaturatedGraph :=
  { g with
    outs := pushAt g.outs src dst
    ins := pushAt g.ins dst src }

/-- `add_edge_internal`. -/
def addEdgeInternal (g : SaturatedGraph) (src dst : Nat) : SaturatedGraph :=
  (g.recordEdge src dst).wqAdd dst

/-- `add_edge`. -/
def addEdge (g : SaturatedGraph) (src dst : IID) : Option SaturatedGraph := do
  let s ← find? g.extidToId src
  let d ← find? g.extidToId dst
  pure (g.addEdgeInternal s d)

/-- `clone`: a copy. -/
def clone (g : SaturatedGraph) : SaturatedGraph := g

/-! ## Adding an event -/

/-- The event as the last one of its process, with its slots in the vectors. -/
def appendSlots (g : SaturatedGraph) (pid : Nat) (extid : IID) (happensAfter : List Nat) :
    SaturatedGraph :=
  let id := g.events.length
  let byPid := enlarge g.eventsByPid (pid + 1) []
  let outs := match (byPid.getD pid []).getLast? with
    | some pred => pushAt g.outs pred id
    | none => g.outs
  { g with
    extidToId := AssocMap.insert g.extidToId extid id
    eventsByPid := pushAt byPid pid id
    writesByProcessAndAddress := enlarge g.writesByProcessAndAddress (pid + 1) []
    outs := outs ++ [[]]
    ins := g.ins ++ [happensAfter] }

/-- The event is a reader of `w`. -/
def addReader (g : SaturatedGraph) (w id : Nat) : SaturatedGraph :=
  { g with events := g.events.modify w fun e => { e with readers := e.readers ++ [id] } }

/-- A load of the initial value comes before the first store of each process. -/
def initReadEdges (σ : MapOrder) (g : SaturatedGraph) (id : Nat) (addr : SymAddr) :
    SaturatedGraph :=
  (σ.order (getD g.writesByAddress addr [])).foldl
    (fun g p => g.addEdgeInternal id p.2) g

/-- The first store of a process comes after each load of the initial value. -/
def firstStoreEdges (g : SaturatedGraph) (id : Nat) (addr : SymAddr) : SaturatedGraph :=
  (getD g.readsFromInit addr []).foldl (fun g r => g.recordEdge r id) g

/-- The reader of a store, or of the initial value. -/
def addRead (σ : MapOrder) (g : SaturatedGraph) (id : Nat) (isLoad : Bool) (addr : SymAddr)
    (readFrom : Option Nat) : SaturatedGraph :=
  match readFrom with
  | some w => g.addReader w id
  | none => if isLoad then g.initReadEdges σ id addr else g

/-- The tables of stores. -/
def addStore (g : SaturatedGraph) (pid id : Nat) (addr : SymAddr) : SaturatedGraph :=
  let g :=
    if contains (getD g.writesByAddress addr []) pid then g
    else
      { g.firstStoreEdges id addr with
        writesByAddress :=
          modify g.writesByAddress addr [] fun m => AssocMap.insert m pid id }
  { g with
    writesByProcessAndAddress :=
      g.writesByProcessAndAddress.modify pid fun m => modify m addr [] (· ++ [id]) }

/-- The edges of `in` in the vectors of their sources. -/
def addOuts (g : SaturatedGraph) (id : Nat) : SaturatedGraph :=
  { g with outs := (g.inOf id).foldl (fun outs i => pushAt outs i id) g.outs }

/-- `add_event` after the look-up of the identifiers. -/
def insertEvent (σ : MapOrder) (g : SaturatedGraph) (pid : Nat) (extid : IID)
    (kind : EventKind) (addr : SymAddr) (readFrom : Option Nat)
    (happensAfter : List Nat) : SaturatedGraph :=
  let id := g.events.length
  let poPredecessor := (g.threadOf pid).getLast?
  let index := match poPredecessor with
    | some p => (g.ev p).index + 1
    | none => 1
  let g := g.appendSlots pid extid happensAfter
  let g := g.addRead σ id kind.isLoad addr readFrom
  let g := if kind.isStore then g.addStore pid id addr else g
  let g := g.addOuts id
  let e : Event := {
    pid, index, extId := extid, isLoad := kind.isLoad, isStore := kind.isStore, addr,
    readFrom, readers := [], poPredecessor }
  let g := { g with
    events := g.events ++ [e]
    readsFromInit :=
      if readFrom = none ∧ kind.isLoad then modify g.readsFromInit addr [] (· ++ [id])
      else g.readsFromInit
    vclocks := g.vclocks ++ [[]] }
  g.wqAdd id

/-- `add_event`.  An identifier that was never added throws. -/
def addEvent (σ : MapOrder) (g : SaturatedGraph) (pid : Nat) (extid : IID)
    (kind : EventKind) (addr : SymAddr) (extReadFrom : Option IID) (origIn : List IID) :
    Option SaturatedGraph := do
  let ids := AssocMap.insert g.extidToId extid g.events.length
  let readFrom ← match extReadFrom with
    | some x => (find? ids x).map some
    | none => some none
  let happensAfter ← origIn.mapM (find? ids)
  pure (g.insertEvent σ pid extid kind addr readFrom happensAfter)

/-! ## Clocks -/

/-- `get_process_event`. -/
def getProcessEvent (g : SaturatedGraph) (pid index : Nat) : Nat :=
  (g.threadOf pid).getD (index - 1) 0

/-- `recompute_vc_for_event`. -/
def recomputeVc (g : SaturatedGraph) (e : Event) (ins : List Nat) : Clock :=
  let vc := single e.pid e.index
  let vc := match e.poPredecessor with
    | some p => join vc (g.clockOf p)
    | none => vc
  let vc := match e.readFrom with
    | some w => join vc (g.clockOf w)
    | none => vc
  ins.foldl (fun vc i => join vc (g.clockOf i)) vc

/-- `is_in_cycle`. -/
def isInCycle (g : SaturatedGraph) (e : Event) (ins : List Nat) (vc : Clock) : Bool :=
  (e.poPredecessor.any fun p => same (g.clockOf p) vc)
    || (e.readFrom.any fun w => same (g.clockOf w) vc)
    || ins.any fun i => same (g.clockOf i) vc

/-! ## The forward pass -/

/-- The last store of `pid` to the address of the event `id` up to the index
`index`.  An event does not read from itself. -/
def lastStore (g : SaturatedGraph) (e : Event) (id pid index : Nat) : Option Nat :=
  let writes := upTo (g.writesOf pid e.addr) (g.getProcessEvent pid index)
  let writes := if writes.getLast? = some id then writes.dropLast else writes
  writes.getLast?

/-- The last store of `pid` that the new clock of the event `id` sees, when
the old clock does not see it. -/
def newlyVisible (g : SaturatedGraph) (e : Event) (id : Nat) (oldVc vc : Clock)
    (pid : Nat) : Option Nat :=
  if get oldVc pid = get vc pid then none
  else
    match g.lastStore e id pid (get vc pid) with
    | some pe => if (g.ev pe).index ≤ get oldVc pid then none else some pe
    | none => none

/-- The state of the loop over the processes. -/
structure Pass where
  g : SaturatedGraph
  newIn : Bool
  newEdges : List (Nat × Nat)

/-- The from-read edges from the readers of `pe`. -/
def addFromReads (s : Pass) (pe id : Nat) : Pass :=
  ((s.g.ev pe).readers.filter (· ≠ id)).foldl
    (fun s r => { s with g := s.g.recordEdge r id, newIn := true }) s

/-- The body of the loop over the processes.  An error is `return false`. -/
def visitPid (id : Nat) (e : Event) (oldVc vc : Clock) (s : Pass) (pid : Nat) :
    Except SaturatedGraph Pass :=
  match s.g.newlyVisible e id oldVc vc pid with
  | none => .ok s
  | some pe =>
    let s := if e.isStore then addFromReads s pe id else s
    if e.isLoad then
      match e.readFrom with
      | none => .error s.g
      | some w =>
        if pe ≠ w then .ok { s with newEdges := s.newEdges ++ [(pe, w)] } else .ok s
    else .ok s

/-- `add_successors_to_wq`. -/
def addSuccessorsToWq (g : SaturatedGraph) (id : Nat) (e : Event) : SaturatedGraph :=
  let g := if e.isStore then e.readers.foldl wqAdd g else g
  (g.outOf id).foldl wqAdd g

/-- `add_edges`. -/
def addEdges (g : SaturatedGraph) (edges : List (Nat × Nat)) : SaturatedGraph :=
  edges.foldl (fun g p => g.addEdgeInternal p.1 p.2) g

/-- The end of a round: the new clock, the events that depend on it, and the
edges of the pass. -/
def endRound (s : Pass) (id : Nat) (e : Event) (vc : Clock) : SaturatedGraph :=
  let g := s.g.addSuccessorsToWq id e
  let g := { g with vclocks := g.vclocks.set id vc }
  let g := if s.newIn then g.wqAddFirst id else g
  g.addEdges s.newEdges

/-- The body of the main loop for the event `id`.  An error is
`return false`. -/
def saturateEvent (g : SaturatedGraph) (id : Nat) :
    Except SaturatedGraph SaturatedGraph :=
  let e := g.ev id
  let oldIn := g.inOf id
  let vc := g.recomputeVc e oldIn
  let oldVc := g.clockOf id
  if g.isInCycle e oldIn vc then .error g
  else if same vc oldVc then .ok g
  else do
    let s ←
      if e.isLoad || e.isStore then
        (List.range vc.length).foldlM (visitPid id e oldVc vc) ⟨g, false, []⟩
      else .ok ⟨g, false, []⟩
    .ok (endRound s id e vc)

/-- The queue without its front element `id`. -/
def wqPop (g : SaturatedGraph) (id : Nat) (rest : List Nat) : SaturatedGraph :=
  { g with wqQueue := rest, wqSet := g.wqSet.set id false }

/-- The main loop of `saturate`. -/
def saturateLoop : Nat → SaturatedGraph → Option (Bool × SaturatedGraph)
  | 0, _ => none
  | fuel + 1, g =>
    match g.wqQueue with
    | [] => some (true, { g with wqSet := [] })
    | id :: rest =>
      match (g.wqPop id rest).saturateEvent id with
      | .error g => some (false, g)
      | .ok g => saturateLoop fuel g

/-! ## The backward pass -/

/-- `po_successor`. -/
def poSuccessor (g : SaturatedGraph) (id : Nat) (e : Event) : Option Nat :=
  if (g.threadOf e.pid).getLast? = some id then none
  else (g.threadOf e.pid).find? (id < ·)

/-- The events that `foreach_succ` visits. -/
def successors (g : SaturatedGraph) (id : Nat) (e : Event) : List Nat :=
  (g.poSuccessor id e).toList ++ e.readers ++ g.outOf id

/-- `care`. -/
structure Care where
  set : List Bool
  vec : List Nat

/-- `add_to_care`.  The recursion is as deep as there are events. -/
def addToCare (g : SaturatedGraph) : Nat → Care → Nat → Care
  | 0, care, _ => care
  | fuel + 1, care, id =>
    if care.set.getD id false then care
    else
      let care := { care with set := care.set.set id true }
      let care := (g.successors id (g.ev id)).foldl (g.addToCare fuel) care
      { care with vec := care.vec ++ [id] }

/-- `reverse_care_set`. -/
def reverseCareSet (g : SaturatedGraph) : Care :=
  let new := (List.range g.events.length).drop g.saturatedUntil
  new.foldl
    (fun care id =>
      match (g.ev id).readFrom with
      | some w =>
        if (g.ev id).isLoad && w < g.saturatedUntil then
          g.addToCare (g.events.length + 1) care w
        else care
      | none => care)
    ⟨List.replicate g.events.length false, []⟩

/-- `top`. -/
def top (g : SaturatedGraph) : Clock := g.eventsByPid.map fun l => l.length + 1

/-- `maybe_get_process_event`: `none` is a read out of range. -/
def maybeGetProcessEvent (g : SaturatedGraph) (pid index : Nat) : Option (Option Nat) :=
  if index = 0 then none
  else some (g.threadOf pid)[index - 1]?

/-- The body of the loop over the processes in `reverse_saturate`. -/
def reversePid (id : Nat) (e : Event) (vc : Clock) (newOut : List Nat)
    (g : SaturatedGraph) (pid : Nat) : Option SaturatedGraph := do
  match ← g.maybeGetProcessEvent pid (get vc pid) with
  | none => pure g
  | some firstVisible =>
    let lb := startingAt (g.writesOf pid e.addr) firstVisible
    let lb := if lb.head? = some id then lb.tail else lb
    match lb.head? with
    | none => pure g
    | some pe => pure ((newOut.filter (· ≠ pe)).foldl (fun g r => g.addEdgeInternal r pe) g)

/-- The componentwise minimum, of the length of the first clock. -/
def meet (c d : Clock) : Clock :=
  (List.range c.length).map fun p => min (get c p) (get d p)

/-- The below-clocks with the one of `id` computed from its successors. -/
def setBelowClock (g : SaturatedGraph) (below : List Clock) (id : Nat) (e : Event) :
    List Clock :=
  (g.successors id e).foldl
    (fun below o => below.set id (meet (below.getD id []) (below.getD o [])))
    (below.set id (g.top.set e.pid e.index))

/-- The body of the loop over the care set. -/
def reverseEvent (s : SaturatedGraph × List Clock) (id : Nat) :
    Option (SaturatedGraph × List Clock) := do
  let (g, below) := s
  let e := g.ev id
  let below := g.setBelowClock below id e
  let vc := below.getD id []
  let newOut := e.readers.filter (g.saturatedUntil ≤ ·)
  if e.isStore ∧ newOut ≠ [] then
    let g ← (List.range vc.length).foldlM (reversePid id e vc newOut) g
    pure (g, below)
  else pure (g, below)

/-- `reverse_saturate`: `none` when an index out of range is read. -/
def reverseSaturate (g : SaturatedGraph) : Option SaturatedGraph :=
  if g.saturatedUntil ≠ 0 ∧ g.saturatedUntil ≠ g.events.length then do
    let (g, _) ← g.reverseCareSet.vec.foldlM reverseEvent
      (g, List.replicate g.events.length [])
    pure { g with saturatedUntil := g.events.length }
  else some { g with saturatedUntil := g.events.length }

/-- `saturate`: the verdict and the graph.  The fuel bounds the main loop. -/
def saturate (fuel : Nat) (g : SaturatedGraph) : Option (Bool × SaturatedGraph) := do
  let g ← g.reverseSaturate
  g.saturateLoop fuel

end SaturatedGraph

end ViEqui.Saturation
