import ViEqui.Lib.Simulation
import ViEqui.Gen.Vector

/-!
# Families of vectors

The operations of a program on its vectors.  `Family` is the memory and the
vectors, numbered in the order of their construction.  `Snapshots` is what the
vectors are for: lists, of which some are copies of others.  A list that has
copies is not changed or destroyed, and otherwise the operations are those of
lists.
-/

namespace ViEqui.Gen

variable {T : Type}

/-- What is read of one vector. -/
inductive Query (T : Type)
  | get (ix : Nat)
  | back
  | atIndex (ix : Nat)
  | size
  | forEach
  | allOf (p : T → Bool)

/-- An operation on the vectors `i` and `j` of a family.  `construct`, `copy`
and `move` make a new vector, and `copyAssign j i` and `moveAssign j i` put it
in the place of `j`.  `mutRef` assigns `f x` through the reference to `x`. -/
inductive Op (T : Type)
  | construct
  | pushBack (i : Nat) (x : T)
  | emplaceBack (i : Nat) (x : T)
  | mutRef (i ix : Nat) (f : T → T)
  | query (i : Nat) (q : Query T)
  | copy (i : Nat)
  | move (i : Nat)
  | copyAssign (j i : Nat)
  | moveAssign (j i : Nat)
  | destroy (i : Nat)

inductive Answer (T : Type)
  | done
  | item (x : T)
  | outOfRange
  | count (n : Nat)
  | items (xs : List T)
  | holds (b : Bool)

/-! ## The code -/

def Vector.query (limbSize : Nat) (m : Memory T) (v : Vector) :
    Query T → Option (Answer T)
  | .get ix => (v.get limbSize m ix).map .item
  | .back => (v.back limbSize m).map .item
  | .atIndex ix => (v.atIndex limbSize m ix).map fun r =>
    match r with
    | none => .outOfRange
    | some x => .item x
  | .size => some (.count v.size)
  | .forEach => (v.forEach limbSize m).map .items
  | .allOf p => (v.allOf limbSize m p).map .holds

/-- The vectors that were constructed; `none` for one that was destroyed. -/
structure Family (T : Type) where
  memory : Memory T := {}
  vectors : List (Option Vector) := []

namespace Family

def vector (F : Family T) (i : Nat) : Option Vector := (F.vectors[i]?).join

/-- Vector `i` and memory after a change of it. -/
def put (F : Family T) (i : Nat) (m : Memory T) (v : Vector) : Family T :=
  { memory := m, vectors := F.vectors.set i (some v) }

/-- A place for one more vector. -/
def extend (F : Family T) : Family T :=
  { F with vectors := F.vectors ++ [none] }

def constructAt (F : Family T) (j : Nat) : Family T :=
  let (m, v) := Vector.construct F.memory
  F.put j m v

def copyAt (F : Family T) (j i : Nat) : Option (Family T) := do
  let other ← F.vector i
  let (m, v) ← other.copy F.memory
  return F.put j m v

def moveAt (F : Family T) (j i : Nat) : Option (Family T) := do
  let other ← F.vector i
  let (m, v, rest) := other.move F.memory
  return (F.put i m rest).put j m v

def destroyAt (limbSize : Nat) (F : Family T) (i : Nat) :
    Option (Family T) := do
  let v ← F.vector i
  let m ← v.destroy limbSize F.memory
  return { memory := m, vectors := F.vectors.set i none }

def step (limbSize : Nat) (F : Family T) : Op T → Option (Family T × Answer T)
  | .construct => some (F.extend.constructAt F.vectors.length, .done)
  | .pushBack i x => do
    let v ← F.vector i
    let (m, v) ← v.pushBack limbSize F.memory x
    return (F.put i m v, .done)
  | .emplaceBack i x => do
    let v ← F.vector i
    let (m, v, a, k) ← v.emplaceBack limbSize F.memory x
    let y ← m.slot a k
    return (F.put i m v, .item y)
  | .mutRef i ix f => do
    let v ← F.vector i
    let (m, v, a, k) ← v.mutRef limbSize F.memory ix
    let y ← m.slot a k
    let m ← m.assign a k (f y)
    return (F.put i m v, .item y)
  | .query i q => do
    let v ← F.vector i
    let answer ← v.query limbSize F.memory q
    return (F, answer)
  | .copy i => (F.extend.copyAt F.vectors.length i).map fun F => (F, .done)
  | .move i => (F.extend.moveAt F.vectors.length i).map fun F => (F, .done)
  | .copyAssign j i => do
    let F ← F.destroyAt limbSize j
    let F ← F.copyAt j i
    return (F, .done)
  | .moveAssign j i => do
    let F ← F.destroyAt limbSize j
    let F ← F.moveAt j i
    return (F, .done)
  | .destroy i => (F.destroyAt limbSize i).map fun F => (F, .done)

end Family

/-! ## The lists -/

/-- A list, and the list that it is a copy of.  A copy of the empty list is a
list of its own. -/
structure Snapshot (T : Type) where
  items : List T
  id : Nat
  source : Option Nat

def Snapshot.query (s : Snapshot T) : Query T → Option (Answer T)
  | .get ix => s.items[ix]?.map .item
  | .back => s.items.getLast?.map .item
  | .atIndex ix =>
    match s.items[ix]? with
    | none => some .outOfRange
    | some x => some (.item x)
  | .size => some (.count s.items.length)
  | .forEach => some (.items s.items)
  | .allOf p => some (.holds (s.items.all p))

structure Snapshots (T : Type) where
  entries : List (Option (Snapshot T)) := []
  nextId : Nat := 0

namespace Snapshots

def entry (A : Snapshots T) (i : Nat) : Option (Snapshot T) :=
  (A.entries[i]?).join

def isCopyOf (id : Nat) (e : Option (Snapshot T)) : Bool :=
  e.any fun s => s.source == some id

/-- Some list is a copy of `s`. -/
def hasCopy (A : Snapshots T) (s : Snapshot T) : Bool :=
  A.entries.any (isCopyOf s.id)

def put (A : Snapshots T) (i : Nat) (s : Snapshot T) : Snapshots T :=
  { A with entries := A.entries.set i (some s) }

def extend (A : Snapshots T) : Snapshots T :=
  { A with entries := A.entries ++ [none] }

/-- An empty list of its own in place `j`. -/
def constructAt (A : Snapshots T) (j : Nat) : Snapshots T :=
  { A.put j { items := [], id := A.nextId, source := none } with
    nextId := A.nextId + 1 }

def copyAt (A : Snapshots T) (j i : Nat) : Option (Snapshots T) := do
  let s ← A.entry i
  return { A.put j
    { items := s.items, id := A.nextId
      source := if s.items.isEmpty then none else some s.id } with
    nextId := A.nextId + 1 }

/-- List `i` moves to place `j`, with its copies. -/
def moveAt (A : Snapshots T) (j i : Nat) : Option (Snapshots T) := do
  let s ← A.entry i
  return (A.constructAt i).put j s

def destroyAt (A : Snapshots T) (i : Nat) : Option (Snapshots T) := do
  let s ← A.entry i
  guard (A.hasCopy s = false)
  return { A with entries := A.entries.set i none }

/-- List `i`, when it may be changed. -/
def writable (A : Snapshots T) (i : Nat) : Option (Snapshot T) := do
  let s ← A.entry i
  guard (A.hasCopy s = false)
  return s

def step (A : Snapshots T) : Op T → Option (Snapshots T × Answer T)
  | .construct => some (A.extend.constructAt A.entries.length, .done)
  | .pushBack i x => do
    let s ← A.writable i
    return (A.put i { s with items := s.items ++ [x] }, .done)
  | .emplaceBack i x => do
    let s ← A.writable i
    return (A.put i { s with items := s.items ++ [x] }, .item x)
  | .mutRef i ix f => do
    let s ← A.writable i
    let y ← s.items[ix]?
    return (A.put i { s with items := s.items.set ix (f y) }, .item y)
  | .query i q => do
    let s ← A.entry i
    let answer ← s.query q
    return (A, answer)
  | .copy i => (A.extend.copyAt A.entries.length i).map fun A => (A, .done)
  | .move i => (A.extend.moveAt A.entries.length i).map fun A => (A, .done)
  | .copyAssign j i => do
    let A ← A.destroyAt j
    let A ← A.copyAt j i
    return (A, .done)
  | .moveAssign j i => do
    let A ← A.destroyAt j
    let A ← A.moveAt j i
    return (A, .done)
  | .destroy i => (A.destroyAt i).map fun A => (A, .done)

end Snapshots

end ViEqui.Gen
