import ViEqui.Container
import ViEqui.WorkItems
import ViEqui.Lib.SwapRemove

/-!
# The trace of an RFSC execution

The data of `RFSCTraceBuilder` that `compute_prefixes` reads and changes, and
the small functions it is built from.

* `SymEv`, `Event`, `RFSCTraceBuilder`: the recorded trace.  The kinds of
  symbolic events that RFSC refuses are left out.
* `UnfoldingNode`: a node of the unfolding tree.  The tree holds one node for
  each parent and source, so a node is its path.
* `recomputeCmpxhgSuccess`, `undoCmpxhgRecomputation`: the switch of a
  compare-exchange or a trylock between success and failure.

An `Option` that is read while it is empty, and an index out of range, are
undefined behaviour in the source.  The model reads a default there.
-/

namespace ViEqui.Rfsc

open AssocMap

/-- `SymAddr`: a block and an offset. -/
abbrev SymAddr := SymMBlock × Nat

/-- `SymAddrSize::addr`. -/
def addrOf (a : SymAddrSize) : SymAddr := (a.block, a.offset)

/-! ## Symbolic events -/

/-- `SymEv`. -/
inductive SymEv where
  | none
  | load (addr : SymAddrSize)
  | store (addr : SymAddrSize) (written : List UInt8)
  | rmw (addr : SymAddrSize) (written : List UInt8)
  | cmpXhg (addr : SymAddrSize) (written expected : List UInt8)
  | cmpXhgFail (addr : SymAddrSize) (written expected : List UInt8)
  | mInit (addr : SymAddrSize)
  | mLock (addr : SymAddrSize)
  | mTryLock (addr : SymAddrSize)
  | mTryLockFail (addr : SymAddrSize)
  | mUnlock (addr : SymAddrSize)
  | mDelete (addr : SymAddrSize)
  | spawn (proc : Nat)
  | join (proc : Nat)
deriving DecidableEq, Repr

namespace SymEv

instance : Inhabited SymEv := ⟨none⟩

/-- `addr()`, for the kinds that have an address. -/
def addr? : SymEv → Option SymAddrSize
  | load a | store a _ | rmw a _ | cmpXhg a _ _ | cmpXhgFail a _ _ => some a
  | mInit a | mLock a | mTryLock a | mTryLockFail a | mUnlock a | mDelete a =>
    some a
  | none | spawn _ | join _ => Option.none

/-- `data()`: the bytes written. -/
def data : SymEv → List UInt8
  | store _ w | rmw _ w | cmpXhg _ w _ | cmpXhgFail _ w _ => w
  | _ => []

/-- `symev_is_lock_type`. -/
def isLockType : SymEv → Bool
  | mInit _ | mLock _ | mTryLock _ | mTryLockFail _ | mUnlock _ | mDelete _ => true
  | _ => false

/-- `is_load`. -/
def isLoad : SymEv → Bool
  | load _ | rmw _ _ | cmpXhg _ _ _ | cmpXhgFail _ _ _ => true
  | e => e.isLockType

/-- `is_store`. -/
def isStore : SymEv → Bool
  | store _ _ | rmw _ _ | cmpXhg _ _ _ => true
  | e => e.isLockType

/-- `is_lock`. -/
def isLock : SymEv → Bool
  | mLock _ => true
  | _ => false

/-- `does_lock`. -/
def doesLock : SymEv → Bool
  | mLock _ | mTryLock _ => true
  | _ => false

/-- `is_trylock_fail`. -/
def isTrylockFail : SymEv → Bool
  | mTryLockFail _ => true
  | _ => false

/-- `is_unlock`. -/
def isUnlock : SymEv → Bool
  | mUnlock _ => true
  | _ => false

/-- `is_cmpxhgfail`. -/
def isCmpxhgfail : SymEv → Bool
  | cmpXhgFail _ _ _ => true
  | _ => false

end SymEv

/-! ## Clocks, unfolding and decisions -/

/-- `VClock<IPid>`: a missing component is 0. -/
abbrev VClock := Map Nat Nat

namespace VClock

/-- `operator[]` of a constant clock. -/
def get (c : VClock) (p : Nat) : Nat := getD c p 0

/-- `includes`. -/
def includes (c : VClock) (iid : IID) : Bool := iid.idx ≤ get c iid.pid

/-- `operator+`: the componentwise maximum. -/
def join (c d : VClock) : VClock :=
  d.foldl (fun c x => AssocMap.insert c x.1 (max (get c x.1) x.2)) c

end VClock

/-- `UnfoldingNode`, or a null pointer to one. -/
inductive UnfoldingNode where
  | null
  /-- the first event of a thread -/
  | first (cpid : CPid) (readFrom : UnfoldingNode)
  | next (parent readFrom : UnfoldingNode)
deriving DecidableEq, Repr

namespace UnfoldingNode

instance : Inhabited UnfoldingNode := ⟨null⟩

/-- `parent`. -/
def parent : UnfoldingNode → UnfoldingNode
  | next p _ => p
  | _ => null

/-- `read_from`. -/
def readFrom : UnfoldingNode → UnfoldingNode
  | next _ rf | first _ rf => rf
  | null => null

/-- `find_unfolding_node`. -/
def find (cpid : CPid) (parent readFrom : UnfoldingNode) : UnfoldingNode :=
  match parent with
  | null => first cpid readFrom
  | p => next p readFrom

end UnfoldingNode

/-- `DecisionNode::parent`. -/
def parentOf : DecisionNode → DecisionNode
  | .root => .root
  | .child parent _ => parent

/-! ## The trace -/

/-- `RFSCTraceBuilder::Event`. -/
structure Event where
  iid : IID
  pinned : Bool := false
  clock : VClock := []
  aboveClock : VClock := []
  happensAfter : List Nat := []
  /-- the unfolding event -/
  event : UnfoldingNode := .null
  /-- an index into the prefix, or -1 for the initial value -/
  readFrom : Option Int := none
  sym : SymEv := .none
  decisionPtr : Option DecisionNode := none
  decisionDepth : Int := -1
deriving DecidableEq

instance : Inhabited Event := ⟨{ iid := default }⟩

/-- `RFSCTraceBuilder::Thread`. -/
structure Thread where
  cpid : CPid
  spawnEvent : Int
  eventIndices : List Nat
deriving DecidableEq

instance : Inhabited Thread := ⟨⟨[], -1, []⟩⟩

/-- `RFSCTraceBuilder` in `compute_prefixes`, with the local variable
`writes_by_address`.  `Λ` is the type of the leaves. -/
structure RFSCTraceBuilder (Λ : Type) where
  prefixEvents : List Event
  prefixIdx : Int
  threads : List Thread
  mutexDeadlocks : Map SymAddr (List Nat)
  belowClocks : List VClock
  /-- the sets `children_unf_set` of all decision nodes -/
  childrenUnfSet : List (DecisionNode × UnfoldingNode) := []
  /-- the siblings that were constructed -/
  siblings : List (DecisionNode × UnfoldingNode × Λ) := []
  tasksCreated : Nat := 0
  writesByAddress : Map SymAddr (List Nat) := []

namespace RFSCTraceBuilder

variable {Λ : Type}

/-- `prefix[i]`. -/
def ev (s : RFSCTraceBuilder Λ) (i : Nat) : Event :=
  s.prefixEvents.getD i default

/-- Update `prefix[i]`. -/
def modifyEvent (s : RFSCTraceBuilder Λ) (i : Nat) (f : Event → Event) :
    RFSCTraceBuilder Λ :=
  { s with prefixEvents := s.prefixEvents.modify i f }

/-- Update `threads[p]`. -/
def modifyThread (s : RFSCTraceBuilder Λ) (p : Nat) (f : Thread → Thread) :
    RFSCTraceBuilder Λ :=
  { s with threads := s.threads.modify p f }

/-- `writes_by_address[a]` as an argument: a new address gets an empty
vector. -/
def touch (s : RFSCTraceBuilder Λ) (a : SymAddr) : RFSCTraceBuilder Λ :=
  { s with writesByAddress := modify s.writesByAddress a [] id }

/-- The vector `writes_by_address[a]`. -/
def writes (s : RFSCTraceBuilder Λ) (a : SymAddr) : List Nat :=
  getD s.writesByAddress a []

/-- Update `writes_by_address[a]`. -/
def modifyWrites (s : RFSCTraceBuilder Λ) (a : SymAddr)
    (f : List Nat → List Nat) : RFSCTraceBuilder Λ :=
  { s with writesByAddress := modify s.writesByAddress a [] f }

def setReadFrom (s : RFSCTraceBuilder Λ) (i : Nat) (w : Int) :
    RFSCTraceBuilder Λ :=
  s.modifyEvent i fun e => { e with readFrom := some w }

def setSym (s : RFSCTraceBuilder Λ) (i : Nat) (sym : SymEv) :
    RFSCTraceBuilder Λ :=
  s.modifyEvent i fun e => { e with sym }

def setPinned (s : RFSCTraceBuilder Λ) (i : Nat) (pinned : Bool) :
    RFSCTraceBuilder Λ :=
  s.modifyEvent i fun e => { e with pinned }

/-- `*prefix[i].read_from`. -/
def readFromOf (s : RFSCTraceBuilder Λ) (i : Nat) : Int :=
  (s.ev i).readFrom.getD (-1)

/-- `*prefix[i].decision_ptr`. -/
def decisionOf (s : RFSCTraceBuilder Λ) (i : Nat) : DecisionNode :=
  (s.ev i).decisionPtr.getD .root

/-- `decision_swap`. -/
def decisionSwap (s : RFSCTraceBuilder Λ) (i j : Nat) : RFSCTraceBuilder Λ :=
  let ei := s.ev i
  let ej := s.ev j
  (s.modifyEvent i fun e =>
    { e with decisionPtr := ej.decisionPtr, decisionDepth := ej.decisionDepth }).modifyEvent
    j fun e =>
      { e with decisionPtr := ei.decisionPtr, decisionDepth := ei.decisionDepth }

/-- `get_addr`, for an event with an address. -/
def getAddr (s : RFSCTraceBuilder Λ) (i : Nat) : SymAddrSize :=
  (s.ev i).sym.addr?.getD default

/-- `get_data`. -/
def getData (s : RFSCTraceBuilder Λ) (i : Int) (a : SymAddrSize) : List UInt8 :=
  if i = -1 then List.replicate a.size 0 else (s.ev i.toNat).sym.data

/-- `is_store_when_reading_from`. -/
def isStoreWhenReadingFrom (s : RFSCTraceBuilder Λ) (i : Nat) (readFrom : Int) :
    Bool :=
  match (s.ev i).sym with
  | .store _ _ | .rmw _ _ => true
  | .cmpXhg a _ expected | .cmpXhgFail a _ expected =>
    expected.take a.size = (s.getData readFrom a).take a.size
  | e => e.isLockType

/-! ## Success and failure -/

/-- `CmpXhgUndoLog`: the switch that was made.  `succeed` and `fail` name the
event before it, and `pos` is its place in the vector of writes. -/
inductive CmpXhgUndoLog where
  | none
  | succeed (pos : Nat)
  | fail
  | mSucceed (pos : Nat)
  | mFail
deriving DecidableEq

/-- The symbolic event behind `recompute_cmpxhg_success`. -/
def recomputedSym (s : RFSCTraceBuilder Λ) (idx : Nat) : SymEv :=
  let w := s.readFromOf idx
  match (s.ev idx).sym with
  | .mTryLock a =>
    if w = -1 ∨ ¬ (s.ev w.toNat).sym.doesLock then .mTryLock a else .mTryLockFail a
  | .mTryLockFail a =>
    if w = -1 ∨ ¬ (s.ev w.toNat).sym.doesLock then .mTryLock a else .mTryLockFail a
  | .cmpXhg a written expected | .cmpXhgFail a written expected =>
    if expected.take a.size = (s.getData w a).take a.size then
      .cmpXhg a written expected
    else .cmpXhgFail a written expected
  | e => e

/-- The log of a switch from one symbolic event to another one. -/
def undoLogOf (writes : List Nat) (idx : Nat) : SymEv → SymEv → CmpXhgUndoLog
  | .cmpXhg _ _ _, .cmpXhgFail _ _ _ => .succeed (SwapRemove.lastIdxOf writes idx)
  | .cmpXhgFail _ _ _, .cmpXhg _ _ _ => .fail
  | .mTryLock _, .mTryLockFail _ => .mSucceed (SwapRemove.lastIdxOf writes idx)
  | .mTryLockFail _, .mTryLock _ => .mFail
  | _, _ => .none

/-- The vector of writes behind the switch: a failed event leaves it
(`delete_from_back`), a successful one is appended. -/
def CmpXhgUndoLog.redoWrites (log : CmpXhgUndoLog) (idx : Nat)
    (writes : List Nat) : List Nat :=
  match log with
  | .none => writes
  | .succeed pos | .mSucceed pos => SwapRemove.removeAt writes pos
  | .fail | .mFail => writes ++ [idx]

/-- `recompute_cmpxhg_success`, for the vector of the address `a`. -/
def recomputeCmpxhgSuccess (s : RFSCTraceBuilder Λ) (idx : Nat) (a : SymAddr) :
    RFSCTraceBuilder Λ × CmpXhgUndoLog :=
  let sym := s.recomputedSym idx
  let log := undoLogOf (s.writes a) idx (s.ev idx).sym sym
  ((s.setSym idx sym).modifyWrites a (log.redoWrites idx), log)

/-- The symbolic event that `undo_cmpxhg_recomputation` sets. -/
def CmpXhgUndoLog.undoSym : CmpXhgUndoLog → SymEv → SymEv
  | .succeed _, .cmpXhgFail a written expected => .cmpXhg a written expected
  | .fail, .cmpXhg a written expected => .cmpXhgFail a written expected
  | .mSucceed _, .mTryLockFail a => .mTryLock a
  | .mFail, .mTryLock a => .mTryLockFail a
  | _, e => e

/-- The vector of writes behind `undo_cmpxhg_recomputation`. -/
def CmpXhgUndoLog.undoWrites (log : CmpXhgUndoLog) (idx : Nat)
    (writes : List Nat) : List Nat :=
  match log with
  | .none => writes
  | .succeed pos | .mSucceed pos => SwapRemove.restoreAt writes pos idx
  | .fail | .mFail => writes.dropLast

/-- `undo_cmpxhg_recomputation`, for the vector of the address `a`. -/
def undoCmpxhgRecomputation (s : RFSCTraceBuilder Λ) (log : CmpXhgUndoLog)
    (idx : Nat) (a : SymAddr) : RFSCTraceBuilder Λ :=
  (s.setSym idx (log.undoSym (s.ev idx).sym)).modifyWrites a (log.undoWrites idx)

end RFSCTraceBuilder

end ViEqui.Rfsc
