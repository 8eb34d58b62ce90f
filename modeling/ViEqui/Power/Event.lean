import ViEqui.Event
import ViEqui.Lib.VecSet

/-!
# The state of the POWER/ARM trace builder

The classes of `src/POWERARMTraceBuilder_decl.h`.  A thread of the builder is
the number `proc`, and the event `⟨proc, i⟩` is the `i`-th of its thread,
counted from 1; the event with index 0 is the null event.  Byte addresses are
numbers.

The colour of an event is left out, as each search starts with cleared colours:
the searches carry their own.  What is recorded for traces is left out too.
-/

namespace ViEqui

/-- The order of `IID<int>`. -/
instance : LT IID := ⟨fun a b => a.pid < b.pid ∨ a.pid = b.pid ∧ a.idx < b.idx⟩

instance : DecidableLT IID := fun a b =>
  inferInstanceAs (Decidable (a.pid < b.pid ∨ a.pid = b.pid ∧ a.idx < b.idx))

theorem IID.lt_iff {a b : IID} : a < b ↔ a.pid < b.pid ∨ a.pid = b.pid ∧ a.idx < b.idx := Iff.rfl

theorem IID.lt_trichotomy (a b : IID) : a < b ∨ a = b ∨ b < a := by
  obtain ⟨p, i⟩ := a
  obtain ⟨q, j⟩ := b
  rw [IID.lt_iff, IID.lt_iff, IID.mk.injEq]
  dsimp only
  omega

instance : IsStrictTotalOrder IID (· < ·) where
  irrefl a h := by
    rw [IID.lt_iff] at h
    omega
  trans a b c hab hbc := by
    rw [IID.lt_iff] at *
    omega
  trichotomous a b hab hba := ((IID.lt_trichotomy a b).resolve_left hab).resolve_right hba

namespace Power

/-- The two memory models that the class template is instantiated with; the
third parameter `CB` of the template has the same value there. -/
inductive MemoryModel where
  | arm
  | power
deriving DecidableEq, Repr

inductive AccessType where
  | load
  | store
deriving DecidableEq, Repr

/-- `MRef`: `size` bytes from `ref` on. -/
structure MRef where
  ref : Nat
  size : Nat
deriving DecidableEq, Repr

def MRef.includes (m : MRef) (p : Nat) : Bool := m.ref ≤ p && p < m.ref + m.size

/-- `Access`: a load or store as the interpreter sees it.  `loadReq` is what the
loaded bytes must satisfy. -/
structure Access where
  type : AccessType
  addr : MRef := ⟨0, 1⟩
  data : List UInt8 := []
  addrKnown : Bool := false
  dataKnown : Bool := false
  loadReq : Option (List UInt8 → Bool) := none

/-- `ByteAccess`: a load or store of one byte. -/
structure ByteAccess where
  type : AccessType
  addr : Nat
  data : UInt8 := 0
  dataKnown : Bool := false
deriving DecidableEq, Repr

/-- `Rel`: the events related to an event, behind it and before it. -/
structure Rel where
  fwd : VecSet IID := ∅
  bwd : VecSet IID := ∅
deriving DecidableEq

/-- `Relations`: the relations of one event. -/
structure Relations where
  rf : Rel := {}
  co : Rel := {}
  com : Rel := {}
  poloc : Rel := {}
  ii0 : Rel := {}
  ci0 : Rel := {}
  cc0 : Rel := {}
  hb : Rel := {}
  prop : Rel := {}
deriving DecidableEq

/-- `ExtraHB`: the edges `I × afterI` and `C × afterC`. -/
structure ExtraHB where
  I : VecSet IID := ∅
  C : VecSet IID := ∅
  afterI : VecSet IID := ∅
  afterC : VecSet IID := ∅
deriving DecidableEq

/-- `ExtraRel`: extra edges of hb, and the pairs of extra edges of prop. -/
structure ExtraRel where
  EHB : ExtraHB := {}
  prop : List (IID × IID) := []
deriving DecidableEq

/-- `Param::Choice`: a position in the coherence order, or with `coPos = -1` the
store that is read. -/
structure Choice where
  coPos : Int
  src : IID := ⟨0, 0⟩
deriving DecidableEq, Repr

def Choice.coherence (cp : Int) : Choice := { coPos := cp }

def Choice.source (src : IID) : Choice := { coPos := -1, src }

def Choice.isCoherenceChoice (c : Choice) : Bool := 0 ≤ c.coPos

/-- `Param`: one choice for each byte access of an event, and the relations that
these imply with the events committed before. -/
structure Param where
  choices : List Choice := []
  rel : Relations := {}
  ER : ExtraRel := {}
deriving DecidableEq

/-- `Branch::PEvent`.  Of a parameter in a branch only the choices are set. -/
structure PEvent where
  iid : IID
  choices : List Choice := []
deriving DecidableEq, Repr

/-- How the events of a locked branch are set up. -/
inductive ParamType where
  | wr
  | star
deriving DecidableEq, Repr

structure Branch where
  branch : List PEvent := []
  paramType : ParamType := .wr
deriving DecidableEq, Repr

inductive EventFilledStatus where
  | empty
  | parameter
  | complete
deriving DecidableEq, Repr

/-- Which parameters are calculated when an event of the prefix is committed
again. -/
inductive RecalcParams where
  | no
  | star
  | load
  | param
deriving DecidableEq, Repr

/-- `BVClock`: one bit for each event. -/
structure BVClock where
  vec : List Bool := []
deriving DecidableEq, Repr

/-- The clock of `d`. -/
def BVClock.get (c : BVClock) (d : Nat) : Bool := c.vec.getD d false

/-- The vector with a last index of at least `n - 1`. -/
def BVClock.resize (c : BVClock) (n : Nat) : List Bool :=
  c.vec ++ List.replicate (n - c.vec.length) false

def BVClock.set (c : BVClock) (d : Nat) : BVClock := ⟨(c.resize (d + 1)).set d true⟩

/-- `operator+=`. -/
def BVClock.add (c vc : BVClock) : BVClock :=
  ⟨(c.resize vc.vec.length).zipIdx.map fun (b, i) => b || vc.get i⟩

/-- `PAEvent`. -/
structure PAEvent where
  iid : IID := ⟨0, 0⟩
  committed : Bool := false
  filledStatus : EventFilledStatus := .complete
  accesses : List Access := []
  loadCount : Nat := 0
  baccesses : List ByteAccess := []
  accessTgts : VecSet Nat := ∅
  hasLoad : Bool := false
  hasStore : Bool := false
  unknownAddrCount : Int := 0
  unknownDataCount : Int := 0
  addrDeps : VecSet Nat := ∅
  dataDeps : VecSet Nat := ∅
  ctrlIsyncDeps : VecSet Nat := ∅
  ctrlDeps : VecSet Nat := ∅
  eieioIdxBefore : Int := -1
  lwsyncIdxBefore : Int := -1
  syncIdxBefore : Int := -1
  eieioIdxAfter : Int := -1
  lwsyncIdxAfter : Int := -1
  syncIdxAfter : Int := -1
  curParam : Param := {}
  newParams : List Param := []
  recalcParams : RecalcParams := .no
  recalcParamsLoadSrc : IID := ⟨0, 0⟩
  newBranches : List Branch := []
  branchStart : Int := -1
  branchEnd : Int := -1
  curBranch : Branch := {}
  rel : Relations := {}
  cbBwd : BVClock := {}
  clockIndex : Nat := 0
  polocBwdComputed : Bool := false

instance : Inhabited PAEvent := ⟨{}⟩

/-- The constructor. -/
def PAEvent.new (loadCount storeCount : Nat) (addrDeps dataDeps : VecSet Nat)
    (eieioIdx lwsyncIdx syncIdx : Int) (clkIdx : Nat) : PAEvent where
  loadCount := loadCount
  hasLoad := 0 < loadCount
  hasStore := 0 < storeCount
  unknownAddrCount := loadCount + storeCount
  unknownDataCount := storeCount
  accesses := List.replicate loadCount { type := .load } ++
    List.replicate storeCount { type := .store }
  addrDeps := addrDeps
  dataDeps := dataDeps
  eieioIdxBefore := eieioIdx
  lwsyncIdxBefore := lwsyncIdx
  syncIdxBefore := syncIdx
  clockIndex := clkIdx
  cbBwd := BVClock.set {} clkIdx

def PAEvent.allAddrAndDataKnown (e : PAEvent) : Bool :=
  e.unknownAddrCount = 0 && e.unknownDataCount = 0

/-- `Mem`: the committed accesses to one byte.  `loads[0]` are the loads of the
initial value, and `loads[i + 1]` those of `coherence[i]`. -/
structure Mem where
  coherence : List IID := []
  loads : List (VecSet IID) := [∅]
deriving DecidableEq

/-- `Thread`. -/
structure Thread where
  fchCount : Nat := 0
  committedPrefix : Nat := 0
  addrKnownPrefix : Nat := 0
  ctrlIsyncDeps : VecSet Nat := ∅
  ctrlDeps : VecSet Nat := ∅
  lastFetchedEieioIdx : Int := -1
  lastFetchedLwsyncIdx : Int := -1
  lastFetchedSyncIdx : Int := -1
deriving DecidableEq

instance : Inhabited Thread := ⟨{}⟩

/-- `TB`.  `execPrefix` is `prefix`. -/
structure TB where
  execPrefix : List IID := []
  schedCount : Nat := 0
  fetchCount : Nat := 0
  uncommittedNonblockingCount : Int := 0
  fch : List (List PAEvent) := [[]]
  threads : List Thread := [{}]
  isAborted : Bool := false
  mem : Nat → Mem := fun _ => {}
  nextClockIndex : Nat := 0

namespace TB

/-- `threads[proc]`. -/
def thread (tb : TB) (proc : Nat) : Thread := tb.threads.getD proc {}

/-- `fch[proc][i]`. -/
def fchAt (tb : TB) (proc i : Nat) : PAEvent := (tb.fch.getD proc []).getD i {}

def getEvt (tb : TB) (iid : IID) : PAEvent := tb.fchAt iid.pid (iid.idx - 1)

/-- Assigns to `fch[proc][i]`. -/
def modifyFch (tb : TB) (proc i : Nat) (f : PAEvent → PAEvent) : TB :=
  { tb with fch := tb.fch.modify proc fun evts => evts.modify i f }

def modifyEvt (tb : TB) (iid : IID) (f : PAEvent → PAEvent) : TB :=
  tb.modifyFch iid.pid (iid.idx - 1) f

def modifyThread (tb : TB) (proc : Nat) (f : Thread → Thread) : TB :=
  { tb with threads := tb.threads.modify proc f }

/-- The fetched events, in the order in which loops over all events go. -/
def fetched (tb : TB) : List IID :=
  (List.range tb.threads.length).flatMap fun p =>
    (List.range (tb.thread p).fchCount).map fun i => ⟨p, i + 1⟩

end TB

end Power

end ViEqui
