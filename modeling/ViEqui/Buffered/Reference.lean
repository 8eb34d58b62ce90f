import Mathlib.Logic.Relation
import ViEqui.Buffered.Interpreter

/-!
# Programs under TSO and PSO

What a program can do, apart from how it is scheduled: threads over a memory
with a list of pending stores for each of them.

* `Reference.visit`: one instruction of a thread, when it can be executed.
* `Reference.Step`: an instruction, a pending store that reaches memory, or a
  thread that gets the mutex back that it has given up for a condition variable.

A load reads what the thread sees, byte by byte.  A store reaches memory when
`Leaves` lets it pass the older ones.  A fence, and each of the thread operations,
needs that no store is pending.  A mutex has one owner.
-/

namespace ViEqui.Buffered

open Function (update)
open Tso (SymAddr)

/-- A program with its memory. -/
structure Reference (σ : Type) where
  size : Nat
  ecStack : Nat → Option σ
  assumeBlocked : Nat → Bool
  pendingMutexLock : Nat → Option SymAddr
  owner : SymAddr → Option Nat
  memory : SymAddr → UInt8
  pending : Nat → List Store

namespace Reference

variable {σ : Type}

def goOn (c : Reference σ) (p : Nat) (f : σ) : Reference σ :=
  { c with ecStack := update c.ecStack p (some f) }

def write (c : Reference σ) (e : Store) : Reference σ :=
  { c with memory := StoreBuffer.apply (fun e : Store => e.byteAt) c.memory e }

/-- The thread to join has ended with all its stores in memory, no store is pending
at a fence, and the newest pending store that overlaps a load is one to precisely
that location. -/
structure Clear (c : Reference σ) (p : Nat) (i : Instr σ) : Prop where
  join : ∀ tid next, i = .join tid next → tid < c.size → tid ≠ p →
    c.ecStack tid = none ∧ c.pending tid = [] ∧ c.assumeBlocked tid = false
  fence : i.isFence = true → c.pending p = []
  load : ∀ ml k, i = .load ml k → Readable ml.range (c.pending p)

/-- What instruction `i` of thread `p` needs, and the mutex before it. -/
structure Goes (c : Reference σ) (p : Nat) (i : Instr σ) : Prop extends c.Clear p i where
  lock : ∀ lck, isPthreadMutexLock (c.pendingMutexLock p) i = some lck → c.owner lck = none

/-- The effect of instruction `i` of thread `p`. -/
def exec (c : Reference σ) (p : Nat) : Instr σ → Option (Reference σ)
  | .load ml k =>
    if Readable ml.range (c.pending p) then
      some (c.goOn p (k (ml.range.bytes.map (sees c.memory (c.pending p)))))
    else none
  | .store sd true next => some ((c.write sd).goOn p next)
  | .store sd false next =>
    some ({ c with pending := update c.pending p (c.pending p ++ [sd]) }.goOn p next)
  | .rmw ml f k =>
    let old := ml.range.bytes.map c.memory
    match f old with
    | some sd => some ((c.write sd).goOn p (k old))
    | none => some (c.goOn p (k old))
  | .create child k =>
    some ({ c with
      size := c.size + 1, ecStack := update c.ecStack c.size (some child) }.goOn p (k c.size))
  | .join tid next =>
    if tid < c.size ∧ (c.ecStack tid).isNone ∧ (c.pending tid).isEmpty ∧
        c.assumeBlocked tid = false then
      some (c.goOn p next)
    else none
  | .mutexLock lck next =>
    if c.owner lck = none then some ({ c with owner := update c.owner lck (some p) }.goOn p next)
    else none
  | .mutexUnlock lck next =>
    if c.owner lck = some p then some ({ c with owner := update c.owner lck none }.goOn p next)
    else none
  | .condWait _ lck next =>
    if c.owner lck = some p then
      some ({ c with
        owner := update c.owner lck none
        pendingMutexLock := update c.pendingMutexLock p (some lck) }.goOn p next)
    else none
  | .assume false _ =>
    some { c with
      ecStack := update c.ecStack p none, assumeBlocked := update c.assumeBlocked p true }
  | .exit | .ret => some { c with ecStack := update c.ecStack p none }
  | .fence next | .condInit _ next | .condSignal _ next | .condBroadcast _ next
  | .assume true next | .other next => some (c.goOn p next)

/-- Thread `p` executes `i` when it can. -/
def visit (c : Reference σ) (p : Nat) (i : Instr σ) : Option (Reference σ) :=
  if i.isFence && !(c.pending p).isEmpty then none else c.exec p i

/-- Thread `p` is at an instruction, and has given up no mutex. -/
def At (code : σ → Instr σ) (c : Reference σ) (p : Nat) (i : Instr σ) : Prop :=
  c.pendingMutexLock p = none ∧ (c.ecStack p).map code = some i

variable (Leaves : List Store → Store → Prop) (code : σ → Instr σ)

inductive Step : Reference σ → Reference σ → Prop where
  | visit {c c' p i} (h : c.At code p i) (hv : c.visit p i = some c') : Step c c'
  | flush {c p older e newer} (h : c.pending p = older ++ e :: newer) (hl : Leaves older e) :
    Step c { c.write e with pending := update c.pending p (older ++ newer) }
  | awake {c p lck} (h : c.pendingMutexLock p = some lck) (hp : c.pending p = [])
      (ho : c.owner lck = none) :
    Step c { c with
      owner := update c.owner lck (some p)
      pendingMutexLock := update c.pendingMutexLock p none }

/-- The first thread executes `main`. -/
def initial (main : σ) (memory : SymAddr → UInt8) : Reference σ where
  size := 1
  ecStack := update (fun _ => none) 0 (some main)
  assumeBlocked := fun _ => false
  pendingMutexLock := fun _ => none
  owner := fun _ => none
  memory
  pending := fun _ => []

/-- The program comes to the state. -/
def Reachable (main : σ) (memory : SymAddr → UInt8) (c : Reference σ) : Prop :=
  Relation.ReflTransGen (Step Leaves code) (initial main memory) c

/-! ## What an instruction needs -/

variable {code} {c c' : Reference σ} {p : Nat} {i : Instr σ}

theorem visit_eq (h : i.isFence = true → c.pending p = []) : c.visit p i = c.exec p i := by
  apply if_neg
  rw [Bool.and_eq_true]
  rintro ⟨hfence, hempty⟩
  rw [h hfence] at hempty
  cases hempty

/-- An instruction that is executed has what it needs. -/
theorem goes_of_visit (h : c.At code p i) (hv : c.visit p i = some c') : c.Goes p i := by
  have hfence : i.isFence = true → c.pending p = [] := by
    have := (Option.ite_none_left_eq_some.1 hv).1
    grind
  have hexec := (Option.ite_none_left_eq_some.1 hv).2
  have hpend := h.1
  refine ⟨⟨?_, hfence, ?_⟩, ?_⟩
  · rintro tid next rfl - -
    grind [exec, Option.isNone_iff_eq_none]
  · rintro ml k rfl
    grind [exec]
  · intro lck hlck
    cases i <;> grind [exec, isPthreadMutexLock]

end Reference

end ViEqui.Buffered
