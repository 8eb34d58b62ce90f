import ViEqui.Schedule

/-!
# Programs and their executions

The interpreter loop of `src/Execution.cpp` and the driver loop of
`src/DPORDriver.cpp`, as far as the trace builder can see them.

A program is a family of thread codes.  A code is deterministic in the
results of the instructions that the thread has executed: the values it
read, and the identifiers of the threads it spawned.
-/

namespace ViEqui

open AssocMap

/-- An instruction of a thread. -/
inductive Instr where
  /-- an instruction without an effect on shared objects or threads -/
  | skip
  | load (a : SymAddrSize)
  | store (a : SymAddrSize) (v : Value)
  | rmw (op : RMWOperation) (a : SymAddrSize) (v : Value)
  | cmpxchg (a : SymAddrSize) (expected new : Value)
  | spawn (code : Nat)
  | join (tid : Nat)
  | ret
deriving DecidableEq, Repr

/-- The instruction that a thread with a given code executes next, from the
results of the instructions before. -/
abbrev Program := Nat → List Value → Instr

/-- A thread of the interpreter. -/
structure InterpThread where
  code : Nat
  results : List Value := []
  running : Bool := true
  /-- threads that wait for this one -/
  awaitingJoin : List Nat := []
deriving DecidableEq, Repr

instance : Inhabited InterpThread := ⟨{ code := 0 }⟩

/-- `Interpreter`. -/
structure Interp where
  threads : List InterpThread := [{ code := 0 }]
  memory : Memory := []
  /-- `complete_cmpxchg`: the number of instructions that still run without
  being scheduled, behind a failed compare-exchange -/
  completeCmpxchg : Nat := 0
  rerun : Bool := false
deriving DecidableEq, Repr

/-- The global object `no`, an `int`. -/
def globalInt (no : Nat) : SymAddrSize := ⟨.global no, 0, 4⟩

/-- The bytes of an `int`, little endian. -/
def bytesOf (v : Value) : List UInt8 :=
  [v.toUInt32.toUInt8, (v.toUInt32 >>> 8).toUInt8,
    (v.toUInt32 >>> 16).toUInt8, (v.toUInt32 >>> 24).toUInt8]

/-- The new value that `completeAtomicRMWInst` computes. -/
def applyRmw (op : RMWOperation) (old v : Value) : Value :=
  match op with
  | .umax => if old.toUInt32 < v.toUInt32 then v else old
  | .umin => if v.toUInt32 < old.toUInt32 then v else old
  | op => computeModifiedValue op old v 0

namespace Interp

def threadAt (it : Interp) (t : Nat) : InterpThread := it.threads.getD t default

/-- The next instruction of a thread. -/
def nextInstr (prog : Program) (it : Interp) (t : Nat) : Instr :=
  prog (it.threadAt t).code (it.threadAt t).results

def modifyThread (it : Interp) (t : Nat) (f : InterpThread → InterpThread) :
    Interp :=
  { it with threads := it.threads.modify t f }

/-- Record the result of an instruction. -/
def yieldResult (it : Interp) (t : Nat) (v : Value) : Interp :=
  it.modifyThread t fun th => { th with results := th.results ++ [v] }

def read (it : Interp) (a : SymAddrSize) : Value :=
  getD it.memory (Event.objectOf a) 0

def write (it : Interp) (a : SymAddrSize) (v : Value) : Interp :=
  { it with memory := insert it.memory (Event.objectOf a) v }

/-- `checkRefuse`: the instruction is a join of a thread that runs. -/
def refuses (it : Interp) (t : Nat) : Instr → Option Nat
  | .join tid =>
    if tid < it.threads.length ∧ tid ≠ t ∧ (it.threadAt tid).running then
      some tid
    else none
  | _ => none

/-- The execution of one instruction of thread `t`. -/
def execute (env : Env) (b : Builder) (it : Interp) (t : Nat) :
    Instr → Option (Builder × Interp)
  | .skip => some (b, it.yieldResult t 0)
  | .load a =>
    let b := if a.block.isGlobal then b else b.load a
    some (b, it.yieldResult t (it.read a))
  | .store a v =>
    let b := if a.block.isGlobal then b else b.atomicStore a (bytesOf v)
    some (b, (it.write a v).yieldResult t 0)
  | .rmw op a v => do
    let old := it.read a
    let new := applyRmw op old v
    let b ← b.atomicRmw env a (bytesOf new)
    return (b, (it.write a new).yieldResult t old)
  | .cmpxchg a expected new => do
    let old := it.read a
    let success := old = expected
    let b ← b.compareExchange env a (bytesOf new) success
    let it := if success then it.write a new
      else { it with completeCmpxchg := 2, rerun := true }
    return (b, it.yieldResult t old)
  | .spawn code =>
    some (b.spawn,
      { it with threads := it.threads ++ [({ code } : InterpThread)] }.yieldResult t
        (Int32.ofNat it.threads.length))
  | .join tid => some (b.join tid, it.yieldResult t 0)
  | .ret =>
    let b := (it.threadAt t).awaitingJoin.foldl Builder.markAvailable b
    some (b.markUnavailable t,
      it.modifyThread t fun th => { th with running := false })

/-- The peek at the next instruction of thread `t`. -/
def peek (env : Env) (prog : Program) (b : Builder) (it : Interp) (t : Nat) :
    Option Builder :=
  if !(it.threadAt t).running then some b
  else
    match it.nextInstr prog t with
    | .load a => if a.block.isGlobal then some (b.load a) else some b
    | .store a v =>
      if a.block.isGlobal then some (b.atomicStore a (bytesOf v)) else some b
    | .rmw op a v =>
      if a.block.isGlobal then
        (b.setRmwOperation op v).atomicRmw env a (bytesOf v)
      else some b
    | .cmpxchg a expected new =>
      if a.block.isGlobal then
        (b.setCmpxchgOperation expected new).compareExchange env a
          (bytesOf new) false
      else some b
    | _ => some b

/-- The instruction goes through `visit`: it is no access of a global
object. -/
def visited : Instr → Bool
  | .load a | .store a _ | .rmw _ a _ | .cmpxchg a _ _ => !a.block.isGlobal
  | _ => true

/-- The bookkeeping of `complete_cmpxchg` and `rerun` behind an
instruction of thread `t`. -/
def settle (it : Interp) (t : Nat) (instr : Instr) : Interp :=
  if !(it.threadAt t).running then { it with completeCmpxchg := 0, rerun := false }
  else if visited instr then
    { it with
      completeCmpxchg := it.completeCmpxchg - 1
      rerun := 1 < it.completeCmpxchg }
  else it

/-- One round of the loop of `Interpreter::run` for thread `t`, behind
`schedule`. -/
def round (env : Env) (prog : Program) (b : Builder) (it : Interp) (t : Nat) :
    Option (Builder × Interp) := do
  let it := { it with rerun := false }
  let instr := it.nextInstr prog t
  match it.refuses t instr with
  | some tid =>
    return (b.refuseSchedule,
      it.modifyThread tid fun th => { th with awaitingJoin := th.awaitingJoin ++ [t] })
  | none =>
    let (b, it) ← it.execute env b t instr
    let it := it.settle t instr
    let b ← it.peek env prog b t
    return (b, it)

/-- `Interpreter::run`: rounds until `schedule` answers false.  A thread is
scheduled again without asking behind a failed compare-exchange. -/
def run (env : Env) (prog : Program) :
    Nat → Builder → Interp → Option (Builder × Interp)
  | 0, _, _ => none
  | fuel + 1, b, it => do
    if it.rerun then
      let (b, it) ← round env prog b it b.currentThread
      run env prog fuel b it
    else
      match ← b.schedule env with
      | (b, none) => return (b, it)
      | (b, some t) =>
        let (b, it) ← round env prog b it t
        run env prog fuel b it

end Interp

/-! ## Exploration -/

/-- One execution: `run_once`. -/
def runOnce (env : Env) (prog : Program) (b : Builder) : Option Builder :=
  (Interp.run env prog env.fuel b {}).map (·.1)

/-- The loop of the driver: the builders at the ends of the executions. -/
def explore (env : Env) (prog : Program) : Nat → Builder → Option (List Builder)
  | 0, _ => none
  | fuel + 1, b => do
    let b ← runOnce env prog b
    let (b', more) ← b.reset env
    if more then
      let rest ← explore env prog fuel b'
      return b :: rest
    else return [b]

end ViEqui
