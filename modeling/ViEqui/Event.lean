import Mathlib.Data.List.Basic
import ViEqui.Lib.AssocMap

/-!
# Events

`ViewEqTraceBuilder::Event` of `src/ViewEqTraceBuilder.h`, with the parts of
`IID`, `SymAddrSize` and `SymEv` that the builder reads.

The `value` of an event is a C++ `int`, here `Value`.  The source location
`md` is left out: only `get_trace` reads it.
-/

namespace ViEqui

/-- The C++ `int` that holds the value of an event. -/
abbrev Value := Int32

/-- A shared object, `<base, offset>`. -/
abbrev Object := Nat × Nat

/-- `IID<IPid>`: a thread and an index into its events. -/
structure IID where
  pid : Nat
  idx : Nat
deriving DecidableEq, Repr, Inhabited

instance IID.lawfulBEq_pair : LawfulBEq (IID × IID) :=
  inferInstance

/-! ## Symbolic events -/

/-- `SymMBlock`: global blocks have the process `UINT16_MAX`. -/
structure SymMBlock where
  pid : Nat
  alloc : Int
deriving DecidableEq, Repr, Inhabited

def SymMBlock.global (no : Nat) : SymMBlock := ⟨65535, no⟩

def SymMBlock.isGlobal (b : SymMBlock) : Bool := b.pid = 65535

def SymMBlock.getNo (b : SymMBlock) : Nat :=
  if b.alloc < 0 then (-1 - b.alloc).toNat else b.alloc.toNat

/-- `SymAddrSize`: the bytes `[offset, offset + size)` of a block. -/
structure SymAddrSize where
  block : SymMBlock
  offset : Nat
  size : Nat
deriving DecidableEq, Repr, Inhabited

/-- The kinds of symbolic events that the builder creates. -/
inductive SymEv where
  | load (addr : SymAddrSize)
  | store (addr : SymAddrSize) (written : List UInt8)
  | spawn (num : Nat)
  | join (num : Nat)
deriving DecidableEq, Repr

namespace SymEv

/-- `addr()`, for the kinds that have an address. -/
def addr? : SymEv → Option SymAddrSize
  | load a => some a
  | store a _ => some a
  | _ => none

/-- `_written`. -/
def written : SymEv → List UInt8
  | store _ w => w
  | _ => []

/-- `SymEv::operator==`, which does not look at the bytes written. -/
def same : SymEv → SymEv → Bool
  | load a, load b => a = b
  | store a _, store b _ => a = b
  | spawn m, spawn n => m = n
  | join m, join n => m = n
  | _, _ => false

end SymEv

/-! ## Events -/

inductive AccessType where
  | read | write | spawn | join
deriving DecidableEq, Repr

inductive RMWOperation where
  | cmpxchg | xchg | add | sub | and | nand | or | xor | max | min | umax | umin
deriving DecidableEq, Repr

/-- `compute_modified_value`. -/
def computeModifiedValue (op : RMWOperation)
    (readValue newValue expValue : Value) : Value :=
  match op with
  | .cmpxchg => if readValue = expValue then newValue else readValue
  | .xchg => newValue
  | .add => readValue + newValue
  | .sub => readValue - newValue
  | .and => readValue &&& newValue
  | .nand => ~~~(readValue &&& newValue)
  | .or => readValue ||| newValue
  | .xor => readValue ^^^ newValue
  | .max | .umax => if newValue < readValue then readValue else newValue
  | .min | .umin => if readValue < newValue then readValue else newValue

/-- `Event`.  An event made from an `IID` alone has no symbolic event; its
`type` is uninitialised in the source and every test of it is behind one of
`symEvent`. -/
structure Event where
  type : AccessType := .read
  iid : IID := ⟨0, 0⟩
  symEvent : Option SymEv := none
  value : Value := 0
  object : Object := (0, 0)
  isRmw : Bool := false
  rmwOperation : RMWOperation := .cmpxchg
  rmwValue : Value := 0
  expectedValue : Value := -42
deriving DecidableEq, Repr

instance : Inhabited Event := ⟨{}⟩

namespace Event

/-- The object of an access: array elements are told apart by
`offset / size`. -/
def objectOf (a : SymAddrSize) : Object :=
  (a.block.getNo, if a.offset = 0 then 0 else a.offset / a.size)

/-- `Event(SymEv::Load(ml))` and `make_read`. -/
def makeRead (a : SymAddrSize) : Event :=
  { type := .read, symEvent := some (.load a), object := objectOf a }

/-- `Event(SymEv::Store(ml))` and `make_write`.  The value is the first byte
of the block. -/
def makeWrite (a : SymAddrSize) (written : List UInt8) : Event :=
  { type := .write, symEvent := some (.store a written), object := objectOf a,
    value := Int32.ofNat (written.headD 0).toNat }

/-- `Event(SymEv::Spawn(n))` and `make_spawn`. -/
def makeSpawn (n : Nat) : Event :=
  { type := .spawn, symEvent := some (.spawn n), object := (n, 0) }

/-- `Event(SymEv::Join(n))` and `make_join`. -/
def makeJoin (n : Nat) : Event :=
  { type := .join, symEvent := some (.join n), object := (n, 0) }

/-- `is_global`. -/
def isGlobal (e : Event) : Bool :=
  match e.symEvent.bind SymEv.addr? with
  | some a => a.block.isGlobal
  | none => false

/-- `is_read`: a read of a shared object. -/
def isRead (e : Event) : Bool := e.isGlobal && e.type = .read

/-- `is_write`: a write of a shared object. -/
def isWrite (e : Event) : Bool := e.isGlobal && e.type = .write

/-- `same_object`. -/
def sameObject (e e' : Event) : Bool := e.object = e'.object

/-- `RWpair`. -/
def rwPair (e e' : Event) : Bool :=
  e.sameObject e' && (e.isWrite && e'.isRead || e.isRead && e'.isWrite)

/-- `corresponding_rmw_store`. -/
def correspondingRmwStore (e e' : Event) : Bool :=
  e.isRmw && e'.isRmw && e.iid.pid = e'.iid.pid && e.iid.idx + 1 = e'.iid.idx

theorem rwPair_comm (e e' : Event) : e.rwPair e' = e'.rwPair e := by
  have hobj : e.sameObject e' = e'.sameObject e := by
    simp [sameObject, eq_comm]
  rw [rwPair, rwPair, hobj]
  cases e.isWrite <;> cases e'.isRead <;> cases e.isRead <;> cases e'.isWrite <;> rfl

/-- No event is a read and a write. -/
theorem isRead_eq_false_of_isWrite {e : Event} (h : e.isWrite) :
    e.isRead = false := by
  simp only [isWrite, Bool.and_eq_true, decide_eq_true_eq] at h
  simp [isRead, h.2]

end Event

end ViEqui
