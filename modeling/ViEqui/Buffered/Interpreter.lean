import Mathlib.Logic.Function.Basic
import ViEqui.Lib.StoreBuffer
import ViEqui.Tso.Builder

/-!
# The interpreter under TSO and PSO

`Interpreter::run` and `checkRefuse` of `src/Execution.cpp`, with what
`TSOInterpreter` and `PSOInterpreter` make of them, and the calls of
`TSOTraceBuilder` that decide which thread can be scheduled.

A thread is an arbitrary set of local states with the instruction that each of
them executes next.  The two interpreters differ in their store buffers only:
`Buffering` has the operations, and `Buffering.Lawful` what the rest relies on.

* `checkRefuse`: whether the instruction has to wait.
* `visit`: the instruction is executed.
* `runAux`: a pending store reaches memory.
* `Reachable`: the states of all runs.

Dry runs, sleeping threads, atomic functions and the bound on the depth are left
out, and `mutex_require_init` is false.
-/

namespace ViEqui.Buffered

open Function (update)
open Tso (SymAddr ByteRange)

/-! ## Stores -/

/-- `SymData`: the bytes at a location. -/
structure SymData where
  ref : SymAddrSize
  block : List UInt8

/-- `operator[]`, when the location includes the byte. -/
def SymData.byteAt (sd : SymData) (x : SymAddr) : Option UInt8 :=
  if sd.ref.includes x then sd.block[x.offset - sd.ref.offset]? else none

/-- What a store instruction passes on: a location with at least one byte, and
as many bytes for it. -/
structure Store extends SymData where
  size_pos : 0 < ref.size
  length_eq : block.length = ref.size

/-- The bytes that a thread sees with the pending stores `ws`, oldest first. -/
abbrev sees (memory : SymAddr → UInt8) (ws : List Store) : SymAddr → UInt8 :=
  StoreBuffer.view (fun e : Store => e.byteAt) memory ws

/-- The newest of the pending stores that overlap `ml` is one to precisely
`ml`. -/
def Readable (ml : SymAddrSize) (ws : List Store) : Prop :=
  ∀ e, ws.reverse.find? (fun e => ml.overlaps e.ref) = some e → e.ref = ml

instance (ml : SymAddrSize) (ws : List Store) : Decidable (Readable ml ws) :=
  decidable_of_iff ((ws.reverse.find? fun e => ml.overlaps e.ref).all fun e => e.ref = ml) <| by
    unfold Readable
    cases ws.reverse.find? fun e => ml.overlaps e.ref with
    | none => exact iff_of_true rfl nofun
    | some e => simp

/-- `BufferFlush` with `buffer_flush_ml`: what a refused thread waits for. -/
inductive Await where
  | no
  | full
  | load (ml : SymAddrSize)

/-- The thread can go on. -/
def Await.Met (ws : List Store) : Await → Prop
  | .no => True
  | .full => ws = []
  | .load ml => Readable ml ws

/-! ## Store buffers -/

/-- How a step ends otherwise: `abort()` after an error report, or a failed
assertion. -/
inductive Failure where
  | error
  | assertion

/-- The store buffers of one thread. -/
structure Buffering (B : Type) where
  init : B
  /-- All stores have reached memory. -/
  allEmpty : B → Bool
  /-- `checkRefuse` on an instruction that is a fence. -/
  awaitAll : B → B
  /-- `checkRefuse` on a load: the new buffers when it is refused. -/
  refuseLoad : B → SymAddrSize → Option B
  /-- `visitLoadInst`: the bytes that are read. -/
  load : B → (SymAddr → UInt8) → SymAddrSize → Except Failure (List UInt8)
  /-- `visitStoreInst` on a store that is not atomic. -/
  store : B → SymData → B
  /-- The trace builder can schedule an auxiliary thread. -/
  schedulable : B → Nat → Bool
  /-- `runAux`: the store that reaches memory, and whether the real thread is
  marked available. -/
  runAux : B → Nat → Except Failure (SymData × B × Bool)

/-- What the interpreter relies on.  `Holds b ws a` says that the stores `ws` are
pending, oldest first, and that the thread waits for `a`; `Leaves older e` that
`e` may reach memory before the older stores. -/
structure Buffering.Lawful {B : Type} (M : Buffering B) (Leaves : List Store → Store → Prop)
    (Holds : B → List Store → Await → Prop) : Prop where
  init : Holds M.init [] .no
  allEmpty {b ws a} : Holds b ws a → (M.allEmpty b = true ↔ ws = [])
  unmet {b ws a} : Holds b ws a → a ≠ .no → ¬ a.Met ws
  awaitAll {b ws} : Holds b ws .no → ws ≠ [] → Holds (M.awaitAll b) ws .full
  refuseLoad_none {b ws a ml} : Holds b ws a → 0 < ml.size →
    (M.refuseLoad b ml = none ↔ Readable ml ws)
  refuseLoad_some {b ws ml b'} : Holds b ws .no → 0 < ml.size → M.refuseLoad b ml = some b' →
    Holds b' ws (.load ml)
  load {b ws a ml} (memory) : Holds b ws a → 0 < ml.size → Readable ml ws →
    M.load b memory ml = .ok (ml.bytes.map (sees memory ws))
  store {b ws} (e : Store) : Holds b ws .no → Holds (M.store b e.toSymData) (ws ++ [e]) .no
  runAux {b ws a i} : Holds b ws a → M.schedulable b i = true →
    ∃ older e newer b' wake, ws = older ++ e :: newer ∧ Leaves older e ∧
      M.runAux b i = .ok (e.toSymData, b', wake) ∧
      Holds b' (older ++ newer) (if wake then .no else a) ∧
      (wake = true → a ≠ .no ∧ a.Met (older ++ newer))

/-! ## Instructions -/

/-- The next instruction of a thread with its operands, and how the thread goes
on.  An atomic read-modify-write or compare-exchange is a function of the bytes
that it reads.  `ret` leaves the first function of the thread. -/
inductive Instr (σ : Type) where
  | load (ml : ByteRange) (k : List UInt8 → σ)
  | store (sd : Store) (sc : Bool) (next : σ)
  | fence (next : σ)
  | rmw (ml : ByteRange) (f : List UInt8 → Option Store) (k : List UInt8 → σ)
  | create (child : σ) (k : Nat → σ)
  | join (tid : Nat) (next : σ)
  | mutexLock (lck : SymAddr) (next : σ)
  | mutexUnlock (lck : SymAddr) (next : σ)
  | condInit (cnd : SymAddr) (next : σ)
  | condSignal (cnd : SymAddr) (next : σ)
  | condBroadcast (cnd : SymAddr) (next : σ)
  | condWait (cnd lck : SymAddr) (next : σ)
  | assume (cond : Bool) (next : σ)
  | exit
  | ret
  | other (next : σ)

/-- `isFence`, with the default `extfun_no_fence`. -/
def Instr.isFence {σ : Type} : Instr σ → Bool
  | .load .. | .assume .. | .ret | .other _ => false
  | .store _ sc _ => sc
  | _ => true

/-! ## The state -/

/-- The state of a run: `Threads`, the store buffers of each thread, the
`available` flags of the trace builder for real threads, memory, the two members
of each `PthreadMutex`, the thread of `last_lock` of each `Mutex`, and the
waiters of each `CondVar`.  An empty stack is `none`. -/
structure State (σ B : Type) where
  size : Nat
  ecStack : Nat → Option σ
  awaitingJoin : Nat → List Nat
  assumeBlocked : Nat → Bool
  pendingMutexLock : Nat → Option SymAddr
  buffers : Nat → B
  available : Nat → Bool
  memory : SymAddr → UInt8
  owner : SymAddr → Option Nat
  waiting : SymAddr → List Nat
  lastLock : SymAddr → Option Nat
  condVars : SymAddr → Option (List Nat)

namespace State

variable {σ B : Type}

/-- `mark_available` for each of the threads. -/
def markAvailable (s : State σ B) (ps : List Nat) : State σ B :=
  { s with available := fun q => s.available q || ps.contains q }

/-- `mark_unavailable`, which is what `refuse_schedule` leaves behind too. -/
def markUnavailable (s : State σ B) (p : Nat) : State σ B :=
  { s with available := update s.available p false }

/-- `returnValueToCaller`. -/
def goOn (s : State σ B) (p : Nat) (f : σ) : State σ B :=
  { s with ecStack := update s.ecStack p (some f) }

def setBuffers (s : State σ B) (p : Nat) (b : B) : State σ B :=
  { s with buffers := update s.buffers p b }

def write (s : State σ B) (sd : SymData) : State σ B :=
  { s with memory := StoreBuffer.apply SymData.byteAt s.memory sd }

/-- The next instruction. -/
def next (code : σ → Instr σ) (s : State σ B) (p : Nat) : Option (Instr σ) :=
  (s.ecStack p).map code

end State

/-- `isPthreadMutexLock`: the mutex that a thread has to lock, where `pending` is
its `pending_mutex_lock`. -/
def isPthreadMutexLock {σ : Type} (pending : Option SymAddr) (i : Instr σ) : Option SymAddr :=
  match pending, i with
  | some lck, _ => some lck
  | none, .mutexLock lck _ => some lck
  | none, _ => none

variable {σ B : Type} (M : Buffering B)

/-! ## Refusing an instruction -/

/-- `pthread_join` of a thread that still runs. -/
def refuseJoin (running : Nat → Bool) (s : State σ B) (p : Nat) :
    Instr σ → Option (State σ B)
  | .join tid _ =>
    if tid < s.size ∧ tid ≠ p ∧ running tid = true then
      some { s.markUnavailable p with
        awaitingJoin := update s.awaitingJoin tid (s.awaitingJoin tid ++ [p]) }
    else none
  | _ => none

/-- `pthread_mutex_lock` of a locked mutex. -/
def refuseLock (s : State σ B) (p : Nat) (i : Instr σ) : Option (State σ B) :=
  match isPthreadMutexLock (s.pendingMutexLock p) i with
  | some lck =>
    if (s.owner lck).isSome then
      some { s.markUnavailable p with
        waiting := update s.waiting lck (s.waiting lck ++ [p]) }
    else none
  | none => none

/-- A fence while stores are pending. -/
def refuseFence (s : State σ B) (p : Nat) (i : Instr σ) : Option (State σ B) :=
  if i.isFence && !M.allEmpty (s.buffers p) then
    some ((s.markUnavailable p).setBuffers p (M.awaitAll (s.buffers p)))
  else none

/-- A load of bytes that a pending store writes in part. -/
def refuseLoad (s : State σ B) (p : Nat) : Instr σ → Option (State σ B)
  | .load ml _ => (M.refuseLoad (s.buffers p) ml.range).map ((s.markUnavailable p).setBuffers p)
  | _ => none

/-- `checkRefuse`.  The last two are `Interpreter::checkRefuse`. -/
def checkRefuse (s : State σ B) (p : Nat) (i : Instr σ) : Option (State σ B) :=
  (refuseJoin (fun t => (s.ecStack t).isSome || !M.allEmpty (s.buffers t)) s p i).or <|
  (refuseFence M s p i).or <| (refuseLoad M s p i).or <|
  (refuseJoin (fun t => (s.ecStack t).isSome || s.assumeBlocked t) s p i).or <|
  refuseLock s p i

/-! ## Executing an instruction -/

/-- `fence`, an assertion of the trace builder. -/
def fence (s : State σ B) (p : Nat) : Except Failure Unit :=
  if M.allEmpty (s.buffers p) then .ok () else .error .assertion

def visitLoadInst (s : State σ B) (p : Nat) (ml : ByteRange) (k : List UInt8 → σ) :
    Except Failure (State σ B) := do
  let block ← M.load (s.buffers p) s.memory ml.range
  .ok (s.goOn p (k block))

def visitStoreInst (s : State σ B) (p : Nat) (sd : Store) (sc : Bool) (next : σ) :
    Except Failure (State σ B) := do
  if sc then
    fence M s p
    .ok ((s.write sd.toSymData).goOn p next)
  else
    .ok ((s.setBuffers p (M.store (s.buffers p) sd.toSymData)).goOn p next)

/-- `visitAtomicRMWInst` and `visitAtomicCmpXchgInst`. -/
def visitAtomicRMW (s : State σ B) (p : Nat) (ml : ByteRange) (f : List UInt8 → Option Store)
    (k : List UInt8 → σ) : Except Failure (State σ B) := do
  fence M s p
  let old := ml.range.bytes.map s.memory
  match f old with
  | some sd => .ok ((s.write sd.toSymData).goOn p (k old))
  | none => .ok (s.goOn p (k old))

/-- `callPthreadCreate`, where the number of the new thread is passed on and not
stored. -/
def callPthreadCreate (s : State σ B) (p : Nat) (child : σ) (k : Nat → σ) :
    Except Failure (State σ B) := do
  fence M s p
  .ok ({ s with
    size := s.size + 1
    ecStack := update s.ecStack s.size (some child)
    available := update s.available s.size true }.goOn p (k s.size))

def callPthreadJoin (s : State σ B) (p tid : Nat) (next : σ) : Except Failure (State σ B) := do
  if tid < s.size ∧ tid ≠ p then
    if (s.ecStack tid).isSome then .error .assertion
    else
      fence M s p
      fence M s tid
      .ok (s.goOn p next)
  else .error .error

/-- `callPthreadMutexLock` and `mutex_lock`. -/
def lockMutex (s : State σ B) (p : Nat) (lck : SymAddr) : Except Failure (State σ B) := do
  fence M s p
  if (s.owner lck).isSome then .error .assertion
  else .ok { s with
    lastLock := update s.lastLock lck (some p), owner := update s.owner lck (some p) }

/-- `PthreadMutex::unlock`, and the waiting threads are marked available. -/
def unlockMutex (s : State σ B) (lck : SymAddr) : State σ B :=
  { s.markAvailable (s.waiting lck) with
    owner := update s.owner lck none, waiting := update s.waiting lck [] }

def callPthreadMutexLock (s : State σ B) (p : Nat) (lck : SymAddr) (next : σ) :
    Except Failure (State σ B) := do
  let s ← lockMutex M s p lck
  .ok (s.goOn p next)

def callPthreadMutexUnlock (s : State σ B) (p : Nat) (lck : SymAddr) (next : σ) :
    Except Failure (State σ B) := do
  fence M s p
  if s.owner lck = some p then .ok ((unlockMutex s lck).goOn p next) else .error .error

def callPthreadCondInit (s : State σ B) (p : Nat) (cnd : SymAddr) (next : σ) :
    Except Failure (State σ B) := do
  fence M s p
  if (s.condVars cnd).isSome then .error .error
  else .ok ({ s with condVars := update s.condVars cnd (some []) }.goOn p next)

/-- `cond_signal` wakes the waiter that the alternative of the branch selects. -/
def callPthreadCondSignal (s : State σ B) (p alt : Nat) (cnd : SymAddr) (next : σ) :
    Except Failure (State σ B) := do
  fence M s p
  match s.condVars cnd with
  | none => .error .error
  | some waiters =>
    match waiters[alt]? with
    | none => if waiters = [] then .ok (s.goOn p next) else .error .assertion
    | some q =>
      if s.available q then .error .assertion
      else .ok ({ s.markAvailable [q] with
        condVars := update s.condVars cnd (some (waiters.eraseIdx alt)) }.goOn p next)

def callPthreadCondBroadcast (s : State σ B) (p : Nat) (cnd : SymAddr) (next : σ) :
    Except Failure (State σ B) := do
  fence M s p
  match s.condVars cnd with
  | none => .error .error
  | some waiters =>
    if waiters.any s.available then .error .assertion
    else .ok ({ s.markAvailable waiters with
      condVars := update s.condVars cnd (some []) }.goOn p next)

/-- `cond_wait` looks at the thread that locked the mutex last, and
`callPthreadCondWait` asserts that it still holds it. -/
def callPthreadCondWait (s : State σ B) (p : Nat) (cnd lck : SymAddr) (next : σ) :
    Except Failure (State σ B) := do
  if s.lastLock lck ≠ some p then .error .error
  else
    fence M s p
    match s.condVars cnd with
    | none => .error .error
    | some waiters =>
      if s.owner lck ≠ some p then .error .assertion
      else .ok ({ unlockMutex (s.markUnavailable p) lck with
        condVars := update s.condVars cnd (some (waiters ++ [p]))
        pendingMutexLock := update s.pendingMutexLock p (some lck) }.goOn p next)

/-- `doPthreadCondAwake`, when the thread was suspended by `cond_wait`. -/
def doPthreadCondAwake (s : State σ B) (p : Nat) : Except Failure (State σ B) := do
  match s.pendingMutexLock p with
  | some lck =>
    let s ← lockMutex M s p lck
    .ok { s with pendingMutexLock := update s.pendingMutexLock p none }
  | none => .ok s

/-- The stack is empty.  `run` marks the thread unavailable. -/
def finish (s : State σ B) (p : Nat) : State σ B :=
  { s.markUnavailable p with ecStack := update s.ecStack p none }

/-- `terminate`. -/
def terminate (s : State σ B) (p : Nat) : State σ B :=
  if M.allEmpty (s.buffers p) then s.markAvailable (s.awaitingJoin p) else s

/-- `callAssume` does not terminate the thread. -/
def callAssume (s : State σ B) (p : Nat) (cond : Bool) (next : σ) : State σ B :=
  if cond then s.goOn p next
  else { finish s p with assumeBlocked := update s.assumeBlocked p true }

def visit (s : State σ B) (p alt : Nat) : Instr σ → Except Failure (State σ B)
  | .load ml k => visitLoadInst M s p ml k
  | .store sd sc next => visitStoreInst M s p sd sc next
  | .fence next => do
    fence M s p
    .ok (s.goOn p next)
  | .rmw ml f k => visitAtomicRMW M s p ml f k
  | .create child k => callPthreadCreate M s p child k
  | .join tid next => callPthreadJoin M s p tid next
  | .mutexLock lck next => callPthreadMutexLock M s p lck next
  | .mutexUnlock lck next => callPthreadMutexUnlock M s p lck next
  | .condInit cnd next => callPthreadCondInit M s p cnd next
  | .condSignal cnd next => callPthreadCondSignal M s p alt cnd next
  | .condBroadcast cnd next => callPthreadCondBroadcast M s p cnd next
  | .condWait cnd lck next => callPthreadCondWait M s p cnd lck next
  | .assume cond next => .ok (callAssume s p cond next)
  | .exit => do
    fence M s p
    .ok (finish (terminate M s p) p)
  | .ret => .ok (finish (terminate M s p) p)
  | .other next => .ok (s.goOn p next)

/-! ## Runs -/

/-- What the trace builder schedules: a real thread with the alternative of the
branch, or an auxiliary thread. -/
inductive Choice where
  | thread (p alt : Nat)
  | aux (p i : Nat)

def schedulable (s : State σ B) : Choice → Bool
  | .thread p _ => p < s.size && s.available p
  | .aux p i => p < s.size && M.schedulable (s.buffers p) i

/-- The threads that wait for thread `p`, when it has ended and its last store is
in memory. -/
def wakeJoiners (s : State σ B) (p : Nat) : State σ B :=
  if M.allEmpty (s.buffers p) && (s.ecStack p).isNone then s.markAvailable (s.awaitingJoin p)
  else s

/-- A scheduled auxiliary thread. -/
def runAux (s : State σ B) (p i : Nat) : Except Failure (State σ B) := do
  let (sd, b, wake) ← M.runAux (s.buffers p) i
  let s := (s.write sd).setBuffers p b
  .ok (wakeJoiners M (if wake then s.markAvailable [p] else s) p)

variable (code : σ → Instr σ)

/-- A scheduled real thread.  Its stack is never empty; `ECStack()->back()` would
be undefined. -/
def runThread (s : State σ B) (p alt : Nat) : Except Failure (State σ B) :=
  match s.next code p with
  | none => .error .assertion
  | some i =>
    match checkRefuse M s p i with
    | some s => .ok s
    | none => do
      let s ← doPthreadCondAwake M s p
      visit M s p alt i

/-- One round of the loop of `run`. -/
def step (s : State σ B) : Choice → Except Failure (State σ B)
  | .thread p alt => runThread M code s p alt
  | .aux p i => runAux M s p i

/-- The first thread executes `main`. -/
def initial (main : σ) (memory : SymAddr → UInt8) : State σ B where
  size := 1
  ecStack := update (fun _ => none) 0 (some main)
  awaitingJoin := fun _ => []
  assumeBlocked := fun _ => false
  pendingMutexLock := fun _ => none
  buffers := fun _ => M.init
  available := update (fun _ => false) 0 true
  memory
  owner := fun _ => none
  waiting := fun _ => []
  lastLock := fun _ => none
  condVars := fun _ => none

/-- The states that a run comes to. -/
inductive Reachable (main : σ) (memory : SymAddr → UInt8) : State σ B → Prop where
  | initial : Reachable main memory (initial M main memory)
  | step {s s' c} (h : Reachable main memory s) (hc : schedulable M s c = true)
      (hs : step M code s c = .ok s') : Reachable main memory s'

/-- The run with the given choices, which stops at one that fails or cannot be
scheduled. -/
def run (s : State σ B) : List Choice → State σ B
  | [] => s
  | c :: cs =>
    if schedulable M s c then
      match step M code s c with
      | .ok s' => run s' cs
      | .error _ => s
    else s

variable {M code}

theorem Reachable.run {main : σ} {memory : SymAddr → UInt8} {s : State σ B}
    (h : Reachable M code main memory s) (cs : List Choice) :
    Reachable M code main memory (Buffered.run M code s cs) := by
  induction cs generalizing s with
  | nil => exact h
  | cons c cs ih =>
    unfold Buffered.run
    split
    · next hc =>
      split
      · next s' hs => exact ih (h.step hc hs)
      · exact h
    · exact h

end ViEqui.Buffered
