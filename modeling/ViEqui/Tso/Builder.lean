import ViEqui.Lib.AssocMap
import ViEqui.Tso.SymEv

/-!
# The operations of the TSO builder under SC

`TSOTraceBuilder` of `src/TSOTraceBuilder.cpp` with the memory model SC: the
scheduling calls, and the operations on memory, mutexes and condition
variables, each of them in a dry run and outside.

Under SC all threads are real ones: they have even numbers, no store is ever
pending, and no update is executed.  Of the state only what decides about the
sleep set and about the outcome of an operation is here: the clocks, the races
and the last accesses to a location are left out, and in place of the event
that locked a mutex or waits for a condition variable stands its thread.
-/

namespace ViEqui.Tso

open AssocMap

/-! ## The state -/

/-- The range of a memory access, which has at least one byte. -/
structure ByteRange where
  range : SymAddrSize
  size_pos : 0 < range.size

/-- The interpreter passes one byte for a mutex or a condition variable. -/
def SymAddr.one (a : SymAddr) : SymAddrSize := ⟨a.block, a.offset, 1⟩

/-- `Thread`.  A `VecSet` is a list here, and `sleep_sym` the list it points
to. -/
structure Thread where
  storeBuffer : List SymAddrSize := []
  sleeping : Bool := false
  sleepAccessesR : List SymAddr := []
  sleepAccessesW : List SymAddr := []
  sleepFullMemoryConflict : Bool := false
  sleepSym : Option Sym := none
deriving DecidableEq, Repr

/-- `Mutex`. -/
structure Mutex where
  lastLock : Option Nat := none
  locked : Bool := false
deriving DecidableEq, Repr

/-- `CondVar`. -/
structure CondVar where
  waiters : List Nat := []
deriving DecidableEq, Repr

/-- `TSOTraceBuilder`.  `cur` is the thread of the current event, `alt` the
alternative of its branch, and `sym` and `symIdx` its symbolic events.  In a
dry run `dryrun` is the thread that is put to sleep. -/
structure TSOTraceBuilder where
  conf : DporAlgorithm
  threads : List Thread := [{}, {}]
  cur : Nat := 0
  alt : Nat := 0
  sym : Sym := []
  symIdx : Nat := 0
  replay : Bool := false
  dryrun : Option Nat := none
  mutexes : Map SymAddr Mutex := []
  condVars : Map SymAddr CondVar := []

/-- `Access`: a byte that is read or written, or all of memory. -/
inductive Access where
  | r (ml : SymAddr)
  | w (ml : SymAddr)
  | wAllMemory
deriving DecidableEq, Repr

/-! ## Notes for a sleeper -/

namespace Thread

/-- `has_pending_store`. -/
def hasPendingStore (t : Thread) (ml : SymAddr) : Bool :=
  t.storeBuffer.any fun st => st.includes ml

/-- The test of `wakeup` on thread `p` when `pid` makes an access. -/
def wakesOn (t : Thread) (p pid : Nat) : Access → Bool
  | .wAllMemory =>
    t.sleepFullMemoryConflict || !t.sleepAccessesW.isEmpty ||
      t.sleepAccessesR.any fun b => !t.hasPendingStore b
  | .r ml => t.sleepFullMemoryConflict || (p ≠ pid + 1 && ml ∈ t.sleepAccessesW)
  | .w ml =>
    t.sleepFullMemoryConflict ||
      (p + 1 ≠ pid && (ml ∈ t.sleepAccessesW ||
        (ml ∈ t.sleepAccessesR && !t.hasPendingStore ml)))

/-- What `wakeup` does to a thread that it removes from the sleep set. -/
def woken (t : Thread) : Thread :=
  { t with
    sleeping := false, sleepAccessesR := [], sleepAccessesW := [],
    sleepFullMemoryConflict := false, sleepSym := none }

def noteSym (event : SymEv) (t : Thread) : Thread :=
  { t with sleepSym := t.sleepSym.map (· ++ [event]) }

def noteReads (bs : List SymAddr) (t : Thread) : Thread :=
  { t with sleepAccessesR := t.sleepAccessesR ++ bs }

def noteWrites (bs : List SymAddr) (t : Thread) : Thread :=
  { t with sleepAccessesW := t.sleepAccessesW ++ bs }

def noteFullMemoryConflict (t : Thread) : Thread := { t with sleepFullMemoryConflict := true }

end Thread

/-- `wakeup` on the threads. -/
def wakeThreads (pid : Nat) (threads : List Thread) (access : Access) : List Thread :=
  threads.mapIdx fun p t => if t.wakesOn p pid access then t.woken else t

namespace TSOTraceBuilder

/-- `wakeup`. -/
def wakeup (s : TSOTraceBuilder) (access : Access) : TSOTraceBuilder :=
  { s with threads := wakeThreads s.cur s.threads access }

def modifyThread (s : TSOTraceBuilder) (p : Nat) (f : Thread → Thread) : TSOTraceBuilder :=
  { s with threads := s.threads.modify p f }

/-! ## Symbolic events -/

/-- The outcome of a call: false when an error was generated. -/
abbrev Result := Bool × TSOTraceBuilder

/-- `record_symbolic`.  The last case is a replayed event with fewer symbolic
events than the first time, which the source excludes. -/
def recordSymbolic (s : TSOTraceBuilder) (event : SymEv) : Result :=
  match s.dryrun with
  | some p => (true, s.modifyThread p (Thread.noteSym event))
  | none =>
    if s.replay then
      match s.sym[s.symIdx]? with
      | some last =>
        if last.isCompatibleWith event then
          (true, { s with sym := s.sym.set s.symIdx event, symIdx := s.symIdx + 1 })
        else (false, { s with symIdx := s.symIdx + 1 })
      | none => (false, s)
    else (true, { s with sym := s.sym ++ [event], symIdx := s.symIdx + 1 })

/-- Record an event and go on, or return false. -/
def recording (s : TSOTraceBuilder) (event : SymEv) (k : TSOTraceBuilder → Result) : Result :=
  let r := s.recordSymbolic event
  if r.1 then k r.2 else (false, r.2)

/-- In a dry run the access is noted for the thread that is put to sleep. -/
def dryOr (s : TSOTraceBuilder) (note : Thread → Thread) (k : TSOTraceBuilder → Result) :
    Result :=
  match s.dryrun with
  | some p => (true, s.modifyThread p note)
  | none => k s

/-! ## Memory -/

/-- `do_load`.  A load of a pending store of its own thread sees only that. -/
def doLoad (s : TSOTraceBuilder) (ml : SymAddrSize) : Result :=
  s.dryOr (Thread.noteReads ml.bytes) fun s =>
    if (s.threads.getD s.cur {}).storeBuffer.any fun st => st.addr = ml.addr then (true, s)
    else (true, ml.bytes.foldl (fun s b => s.wakeup (.r b)) s)

/-- `do_atomic_store`. -/
def doAtomicStore (s : TSOTraceBuilder) (ml : SymAddrSize) : Result :=
  s.dryOr (Thread.noteWrites ml.bytes) fun s =>
    (true, ml.bytes.foldl (fun s b => s.wakeup (.w b)) s)

/-- `load`. -/
def load (s : TSOTraceBuilder) (ml : SymAddrSize) : Result :=
  s.recording (.load ml) fun s => s.doLoad ml

/-- `atomic_store`. -/
def atomicStore (s : TSOTraceBuilder) (ml : SymAddrSize) (written : Block) : Result :=
  s.recording (if s.conf = .observers then .unobsStore ml written else .store ml written)
    fun s => s.doAtomicStore ml

/-- `compare_exchange`. -/
def compareExchange (s : TSOTraceBuilder) (ml : SymAddrSize) (written expected : Block)
    (success : Bool) : Result :=
  if success then
    s.recording (.cmpXhg ml written expected) fun s => (s.doLoad ml).2.doAtomicStore ml
  else s.recording (.cmpXhgFail ml written expected) fun s => s.doLoad ml

/-- `full_memory_conflict`. -/
def fullMemoryConflict (s : TSOTraceBuilder) : Result :=
  s.recording .fullmem fun s =>
    s.dryOr Thread.noteFullMemoryConflict fun s => (true, s.wakeup .wAllMemory)

/-! ## Mutexes -/

def modifyMutex (s : TSOTraceBuilder) (m : SymAddr) (f : Mutex → Mutex) : TSOTraceBuilder :=
  { s with mutexes := modify s.mutexes m {} f }

/-- The common part of the operations on a mutex or a condition variable: the
event is recorded, a dry run notes a write, and `k` is the rest. -/
def synchronise (s : TSOTraceBuilder) (event : SymEv) (ml : SymAddr)
    (k : TSOTraceBuilder → Result) : Result :=
  s.recording event fun s => s.dryOr (Thread.noteWrites [ml]) k

/-- `mutex_lock`. -/
def mutexLock (s : TSOTraceBuilder) (m : SymAddr) : Result :=
  s.synchronise (.mLock m.one) m fun s =>
    (true, (s.wakeup (.w m)).modifyMutex m fun _ => { lastLock := some s.cur, locked := true })

/-- `mutex_lock_fail`, which records no event. -/
def mutexLockFail (s : TSOTraceBuilder) (m : SymAddr) : Result :=
  (true, s.modifyMutex m id)

/-- `mutex_trylock`, which records `MLock` too. -/
def mutexTrylock (s : TSOTraceBuilder) (m : SymAddr) : Result :=
  s.synchronise (.mLock m.one) m fun s =>
    (true, (s.wakeup (.w m)).modifyMutex m fun mutex =>
      if mutex.locked then mutex else { lastLock := some s.cur, locked := true })

/-- `mutex_unlock`. -/
def mutexUnlock (s : TSOTraceBuilder) (m : SymAddr) : Result :=
  s.synchronise (.mUnlock m.one) m fun s =>
    (true, (s.wakeup (.w m)).modifyMutex m fun mutex => { mutex with locked := false })

/-- `mutex_init`.  It does not call `wakeup`. -/
def mutexInit (s : TSOTraceBuilder) (m : SymAddr) : Result :=
  s.synchronise (.mInit m.one) m fun s => (true, s.modifyMutex m id)

/-- `mutex_destroy`. -/
def mutexDestroy (s : TSOTraceBuilder) (m : SymAddr) : Result :=
  s.synchronise (.mDelete m.one) m fun s =>
    let s := s.wakeup (.w m)
    (true, { s with mutexes := erase s.mutexes m })

/-! ## Condition variables -/

/-- `cond_init`.  It does not call `wakeup`. -/
def condInit (s : TSOTraceBuilder) (c : SymAddr) : Result :=
  s.synchronise (.cInit c.one) c fun s =>
    if contains s.condVars c then (false, s)
    else (true, { s with condVars := insert s.condVars c {} })

/-- `register_alternatives`. -/
def registerAlternatives (s : TSOTraceBuilder) (altCount : Nat) : Result :=
  s.recordSymbolic (.nondet altCount)

/-- Remove the waiter that the alternative of the current branch selects. -/
def signalWaiter (s : TSOTraceBuilder) (c : SymAddr) (cond : CondVar) : TSOTraceBuilder :=
  { s with condVars := insert s.condVars c { waiters := cond.waiters.eraseIdx s.alt } }

/-- `cond_signal`. -/
def condSignal (s : TSOTraceBuilder) (c : SymAddr) : Result :=
  s.synchronise (.cSignal c.one) c fun s =>
    let s := s.wakeup (.w c)
    match find? s.condVars c with
    | none => (false, s)
    | some cond =>
      if 1 < cond.waiters.length then
        let r := s.registerAlternatives cond.waiters.length
        if r.1 then (true, r.2.signalWaiter c cond) else (false, r.2)
      else (true, s.signalWaiter c cond)

/-- `cond_broadcast`. -/
def condBroadcast (s : TSOTraceBuilder) (c : SymAddr) : Result :=
  s.synchronise (.cBrdcst c.one) c fun s =>
    let s := s.wakeup (.w c)
    if contains s.condVars c then (true, { s with condVars := insert s.condVars c {} })
    else (false, s)

/-- The mutex that `cond_wait` is called with was locked last by the current
thread. -/
def ownsMutex (s : TSOTraceBuilder) (m : SymAddr) : Bool :=
  match find? s.mutexes m with
  | some mutex => mutex.lastLock = some s.cur
  | none => false

/-- `cond_wait`, when the mutex is unlocked. -/
def waitOn (s : TSOTraceBuilder) (c : SymAddr) : Result :=
  s.recording (.cWait c.one) fun s => s.dryOr (Thread.noteReads [c]) fun s =>
    let s := s.wakeup (.r c)
    match find? s.condVars c with
    | none => (false, s)
    | some cond =>
      (true, { s with condVars := insert s.condVars c { waiters := cond.waiters ++ [s.cur] } })

/-- `cond_wait`. -/
def condWait (s : TSOTraceBuilder) (c m : SymAddr) : Result :=
  if s.dryrun = none ∧ s.ownsMutex m = false then (false, s)
  else
    let r := s.mutexUnlock m
    if r.1 then r.2.waitOn c else (false, r.2)

/-- `cond_awake`.  It locks the mutex, and does not call `wakeup` for the
condition variable. -/
def condAwake (s : TSOTraceBuilder) (c m : SymAddr) : Result :=
  let r := s.mutexLock m
  if r.1 then r.2.recording (.cAwake c.one) fun s => (true, s) else (false, r.2)

/-- `cond_destroy`. -/
def condDestroy (s : TSOTraceBuilder) (c : SymAddr) : Result :=
  s.synchronise (.cDelete c.one) c fun s =>
    let s := s.wakeup (.w c)
    if contains s.condVars c then (true, { s with condVars := erase s.condVars c })
    else (false, s)

/-! ## Scheduling -/

/-- `schedule`, when it goes to an event of thread `p`.  In a replay the event
has the symbolic events of the last time. -/
def schedule (s : TSOTraceBuilder) (p alt : Nat) (expected : Option Sym) : TSOTraceBuilder :=
  { s with
    cur := p, alt, sym := expected.getD [], symIdx := 0, replay := expected.isSome,
    dryrun := none }

/-- `schedule`, when it puts thread `p` to sleep and starts a dry run of it. -/
def scheduleDryRun (s : TSOTraceBuilder) (p : Nat) : TSOTraceBuilder :=
  { s.modifyThread p fun t => { t with sleeping := true, sleepSym := some [] } with
    dryrun := some p }

/-- `spawn`. -/
def spawn (s : TSOTraceBuilder) : Result :=
  let s := { s with threads := s.threads ++ [({} : Thread), {}] }
  s.recordSymbolic (.spawn (s.threads.length / 2 - 1))

/-- `join`. -/
def join (s : TSOTraceBuilder) (proc : Nat) : Result := s.recordSymbolic (.join proc)

/-- `reset`. -/
def reset (s : TSOTraceBuilder) : TSOTraceBuilder :=
  { conf := s.conf }

end TSOTraceBuilder

end ViEqui.Tso
