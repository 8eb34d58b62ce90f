import Mathlib.Data.Multiset.Defs
import ViEqui.Gen.Map
import ViEqui.Lib.KeyedPairs
import ViEqui.Lib.Simulation
import ViEqui.Lib.Versions

/-!
# Families of maps

The operations of a program on its maps.  `MapFamily` is the memory and the
maps, numbered in the order of their construction.  What the maps are for is
`Versions` of finite maps: some are copies of others, a map that has copies is
not changed or destroyed, and otherwise the operations are those of finite
maps.
-/

namespace ViEqui.Gen

variable {K T : Type}

/-- The fields of `gen::map`. -/
structure Map where
  generation : Nat
  size : Nat
  root : Option Nat
  debugParent : Option Nat
  debugRefcount : Nat
deriving DecidableEq

/-- What is read of one map. -/
inductive MapQuery (K : Type)
  | find (k : K)
  | count (k : K)
  | atKey (k : K)
  | index (k : K)
  | size
  | forEach

/-- An operation on the maps `i` and `j` of a family.  `construct`, `copy` and
`move` make a new map, and `copyAssign j i` and `moveAssign j i` are
assignments to `j`.  `mutRef` assigns `f x` through the reference to `x`. -/
inductive MapOp (K T : Type)
  | construct
  | mutRef (i : Nat) (k : K) (f : T → T)
  | query (i : Nat) (q : MapQuery K)
  | copy (i : Nat)
  | move (i : Nat)
  | copyAssign (j i : Nat)
  | moveAssign (j i : Nat)
  | swap (i j : Nat)
  | destroy (i : Nat)

/-- The pairs that the callback of `for_each` gets come in no order. -/
inductive MapAnswer (K T : Type)
  | done
  | item (x : T)
  | found (x : Option T)
  | outOfRange
  | count (n : Nat)
  | pairs (xs : Multiset (K × T))

/-! ## The code -/

namespace Map

/-- `++_size` on `uint32_t`. -/
def sizeAfter (size : Nat) (inserted : Bool) : Nat :=
  if inserted then (size + 1) % 2 ^ 32 else size

def construct (counts : Heap Nat) : Heap Nat × Map :=
  (counts.alloc 0,
    { generation := 0, size := 0, root := none, debugParent := none
      debugRefcount := counts.next })

/-- `map(const map &)`.  The generation is an `int32_t`. -/
def copy (counts : Heap Nat) (other : Map) : Option (Heap Nat × Map) :=
  let M : Map :=
    { generation := 0, size := other.size, root := other.root
      debugParent := none, debugRefcount := counts.next }
  match other.root with
  | none => some (counts.alloc 0, M)
  | some _ => do
    let count ← (counts.alloc 0).read other.debugRefcount
    guard (other.generation + 1 < 2 ^ 31)
    return ((counts.alloc 0).write other.debugRefcount (count + 1),
      { M with
        debugParent := some other.debugRefcount
        generation := other.generation + 1 })

def assertWritable (counts : Heap Nat) (M : Map) : Option Unit := do
  let count ← counts.read M.debugRefcount
  guard (count = 0)

/-- `if (_debug_parent) --*_debug_parent`. -/
def releaseParent (counts : Heap Nat) (M : Map) : Option (Heap Nat) :=
  match M.debugParent with
  | none => some counts
  | some parent => do
    let count ← counts.read parent
    return counts.write parent (count - 1)

variable [BEq K] (hash : K → BitVec 64)

def query [Inhabited T] (cells : Heap (Cell K T)) (M : Map) :
    MapQuery K → Option (MapAnswer K T)
  | .find k => (findValue hash cells M.root k).map .found
  | .count k => (findValue hash cells M.root k).map fun r =>
    .count (if r.isSome then 1 else 0)
  | .atKey k => (findValue hash cells M.root k).map fun r =>
    match r with
    | none => .outOfRange
    | some x => .item x
  | .index k => (findValue hash cells M.root k).map fun r =>
    .item (r.getD default)
  | .size => some (.count M.size)
  | .forEach =>
    match M.root with
    | none => some (.pairs (Multiset.ofList []))
    | some a => (forEachChild cells maxLevels a).map fun xs =>
      .pairs (Multiset.ofList xs)

end Map

/-- The maps that were constructed; `none` for one that was destroyed. -/
structure MapFamily (K T : Type) where
  cells : Heap (Cell K T) := {}
  counts : Heap Nat := {}
  maps : List (Option Map) := []

namespace MapFamily

def map (F : MapFamily K T) (i : Nat) : Option Map := Places.get F.maps i

def extend (F : MapFamily K T) : MapFamily K T :=
  { F with maps := F.maps ++ [none] }

def constructAt (F : MapFamily K T) (j : Nat) : MapFamily K T :=
  let (counts, M) := Map.construct F.counts
  { F with counts := counts, maps := F.maps.set j (some M) }

def copyAt (F : MapFamily K T) (j i : Nat) : Option (MapFamily K T) := do
  let other ← F.map i
  let (counts, M) ← Map.copy F.counts other
  return { F with counts := counts, maps := F.maps.set j (some M) }

def swapAt (F : MapFamily K T) (i j : Nat) : Option (MapFamily K T) := do
  let M ← F.map i
  let N ← F.map j
  return { F with maps := (F.maps.set i (some N)).set j (some M) }

def destroyAt (F : MapFamily K T) (i : Nat) : Option (MapFamily K T) := do
  let M ← F.map i
  M.assertWritable F.counts
  let counts ← M.releaseParent F.counts
  let cells ← Map.freeChild M.generation Map.maxLevels F.cells M.root
  return { cells := cells, counts := counts.free M.debugRefcount
           maps := F.maps.set i none }

variable [BEq K] [Inhabited T] (hash : K → BitVec 64)

def mutAt (F : MapFamily K T) (i : Nat) (k : K) (f : T → T) :
    Option (MapFamily K T × T) := do
  let M ← F.map i
  M.assertWritable F.counts
  let (st, a, inserted) ←
    Map.mutLeaf hash M.generation ⟨F.cells, M.root⟩ k
  let x ← Map.valueAt st.cells a
  let cells ← Map.assign st.cells a (f x)
  return ({ F with
    cells := cells
    maps := F.maps.set i (some { M with
      size := Map.sizeAfter M.size inserted, root := st.root }) }, x)

def step (F : MapFamily K T) : MapOp K T → Option (MapFamily K T × MapAnswer K T)
  | .construct => some (F.extend.constructAt F.maps.length, .done)
  | .mutRef i k f => (F.mutAt hash i k f).map fun r => (r.1, .item r.2)
  | .query i q => do
    let M ← F.map i
    let answer ← M.query hash F.cells q
    return (F, answer)
  | .copy i => (F.extend.copyAt F.maps.length i).map fun F => (F, .done)
  | .move i => do
    let _ ← F.map i
    let F ← (F.extend.constructAt F.maps.length).swapAt F.maps.length i
    return (F, .done)
  | .copyAssign j i => do
    let F ← F.destroyAt j
    let F ← F.copyAt j i
    return (F, .done)
  | .moveAssign j i => do
    let M ← F.map j
    M.assertWritable F.counts
    let F ← F.swapAt j i
    return (F, .done)
  | .swap i j => (F.swapAt i j).map fun F => (F, .done)
  | .destroy i => (F.destroyAt i).map fun F => (F, .done)

end MapFamily

/-! ## The finite maps -/

/-- A family of finite maps. -/
abbrev FiniteMaps (K T : Type) := Versions (List (K × T))

namespace FiniteMaps

variable [BEq K] [Inhabited T]

def query (m : List (K × T)) : MapQuery K → MapAnswer K T
  | .find k => .found (KeyedPairs.lookup k m)
  | .count k => .count (if (KeyedPairs.lookup k m).isSome then 1 else 0)
  | .atKey k =>
    match KeyedPairs.lookup k m with
    | none => .outOfRange
    | some x => .item x
  | .index k => .item ((KeyedPairs.lookup k m).getD default)
  | .size => .count m.length
  | .forEach => .pairs (Multiset.ofList m)

def step (A : FiniteMaps K T) : MapOp K T →
    Option (FiniteMaps K T × MapAnswer K T)
  | .construct => some (A.extend.addAt A.entries.length [] none 0, .done)
  | .mutRef i k f => do
    let v ← A.writable i
    return (A.set i (some { v with
      contents := KeyedPairs.update k default f v.contents }),
      .item ((KeyedPairs.lookup k v.contents).getD default))
  | .query i q => do
    let v ← A.entry i
    return (A, query v.contents q)
  | .copy i => (A.extend.copyAt List.isEmpty A.entries.length i).map
    fun A => (A, .done)
  | .move i => do
    let _ ← A.entry i
    let A ← (A.extend.addAt A.entries.length [] none 0).swapAt
      A.entries.length i
    return (A, .done)
  | .copyAssign j i => do
    let A ← A.destroyAt j
    let A ← A.copyAt List.isEmpty j i
    return (A, .done)
  | .moveAssign j i => do
    let _ ← A.writable j
    let A ← A.swapAt j i
    return (A, .done)
  | .swap i j => (A.swapAt i j).map fun A => (A, .done)
  | .destroy i => (A.destroyAt i).map fun A => (A, .done)

end FiniteMaps

end ViEqui.Gen
