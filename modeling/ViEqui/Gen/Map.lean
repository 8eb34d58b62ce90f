import Mathlib.Algebra.Ring.Nat
import ViEqui.Lib.BitSlots
import ViEqui.Lib.Heap

/-!
# The map with generations

`gen::map` is a hash trie.  A node takes five bits of the hash and keeps an
array with a child for each bit of its bitmap, the highest first.  The keys
with one remaining hash are a chain of leaves.  A copy of a map shares the root
of its source and is of the next generation; nodes and leaves of an older
generation are copied before they are changed.

Nodes and leaves are cells of a heap.  The sign of `_generation`, which tells
leaves from nodes, is the constructor of the cell.  A `Slot` is a place that a
`child **` points to: the root of the map, `next` of a leaf or an element of
the array of a node.  A function has no result where the code fails an
assertion, follows a null or stale pointer, leaves the bounds of an array, or
shifts a hash by 64 bits or more.  Loops have fuel: `maxLevels` for those that
go down the trie, and the number of cells for those that follow a chain.
-/

namespace ViEqui.Gen

variable {K T : Type}

inductive Cell (K T : Type)
  | leaf (generation : Nat) (key : K) (value : T) (next : Option Nat)
  | node (generation : Nat) (bitmap : BitVec 32) (array : List (Option Nat))

def Cell.generation : Cell K T → Nat
  | .leaf generation _ _ _ => generation
  | .node generation _ _ => generation

inductive Slot
  | root
  | next (leaf : Nat)
  | elem (node position : Nat)
deriving DecidableEq

/-- What a change of a map works on: the cells and the root. -/
structure Store (K T : Type) where
  cells : Heap (Cell K T)
  root : Option Nat

namespace Store

/-- `*child`. -/
def get (st : Store K T) : Slot → Option (Option Nat)
  | .root => some st.root
  | .next a =>
    match st.cells.read a with
    | some (.leaf _ _ _ next) => some next
    | _ => none
  | .elem a i =>
    match st.cells.read a with
    | some (.node _ _ array) => array[i]?
    | _ => none

/-- `*child = p`. -/
def set (st : Store K T) : Slot → Option Nat → Option (Store K T)
  | .root, p => some { st with root := p }
  | .next a, p =>
    match st.cells.read a with
    | some (.leaf generation key value _) =>
      some { st with cells := st.cells.write a (.leaf generation key value p) }
    | _ => none
  | .elem a i, p =>
    match st.cells.read a with
    | some (.node generation bitmap array) =>
      if i < array.length then
        some { st with
          cells := st.cells.write a (.node generation bitmap (array.set i p)) }
      else none
    | _ => none

/-- A new cell, and `*child` points to it. -/
def link (st : Store K T) (child : Slot) (cell : Cell K T) :
    Option (Store K T × Nat) := do
  let st' ← { st with cells := st.cells.alloc cell }.set child
    (some st.cells.next)
  return (st', st.cells.next)

end Store

namespace Map

def log2Arity : Nat := 5

def arity : Nat := 32

/-- More than the levels of a trie over hashes of 64 bits. -/
def maxLevels : Nat := 14

def popcount (bitmap : BitVec 32) : Nat := BitSlots.popcount bitmap

/-- `((bitmap >> index) & 1) == 1`. -/
def hasBit (bitmap : BitVec 32) (index : Nat) : Bool :=
  bitmap >>> index &&& 1#32 == 1#32

section

variable (generation : Nat)

/-- `alloc_node`, with the elements that are stored in the new node, in the
place `child` points to. -/
def allocNode (st : Store K T) (child : Slot) (nodeArity : Nat)
    (bitmap : BitVec 32) (array : List (Option Nat)) :
    Option (Store K T × Nat) := do
  guard (popcount bitmap = nodeArity ∧ 0 < nodeArity ∧
    array.length = nodeArity)
  st.link child (.node generation bitmap array)

def uncowNode (st : Store K T) (child : Slot) : Option (Store K T × Nat) := do
  match ← st.cells.read (← (← st.get child)) with
  | .leaf .. => none
  | .node _ bitmap array =>
    allocNode generation st child (popcount bitmap) bitmap
      (array.take (popcount bitmap))

/-- The node grows to include bit `index`.  The elements from its place on
move up by one.  `realloc_node` moves a node of this generation. -/
def growNode (st : Store K T) (child : Slot) (index : Nat) :
    Option (Store K T × Nat) := do
  let a ← (← st.get child)
  match ← st.cells.read a with
  | .leaf .. => none
  | .node nodeGeneration bitmap array =>
    let position := popcount (bitmap >>> index)
    let st :=
      if nodeGeneration = generation then
        { st with cells := st.cells.free a }
      else st
    allocNode generation st child (popcount bitmap + 1)
      (bitmap ||| 1#32 <<< index)
      (array.take position ++ none :: array.drop position)

/-- The first loop of `mut`: down to a chain or to an empty place, with the
nodes on the way copied.  The rest of the hash and the depth come with it. -/
def descend : Nat → Store K T → Slot → Nat → Nat →
    Option (Store K T × Slot × Nat × Nat)
  | 0, _, _, _, _ => none
  | fuel + 1, st, child, hash, depth => do
    match ← st.get child with
    | none => return (st, child, hash, depth)
    | some a =>
      match ← st.cells.read a with
      | .leaf .. => return (st, child, hash, depth)
      | .node nodeGeneration bitmap _ =>
        let index := hash % arity
        let hash := hash / arity
        let depth := depth + log2Arity
        if hasBit bitmap index then
          let position := popcount (bitmap >>> index) - 1
          if nodeGeneration ≠ generation then
            let (st, n) ← uncowNode generation st child
            descend fuel st (.elem n position) hash depth
          else
            descend fuel st (.elem a position) hash depth
        else
          let (st, n) ← growNode generation st child index
          return (st, .elem n (popcount (bitmap >>> index)), hash, depth)

/-- The leaf of `k` in a chain. -/
def findLeaf [BEq K] (cells : Heap (Cell K T)) (k : K) :
    Nat → Option Nat → Option (Option Nat)
  | _, none => some none
  | 0, some _ => none
  | fuel + 1, some a => do
    match ← cells.read a with
    | .leaf _ key _ next =>
      if k == key then return some a else findLeaf cells k fuel next
    | .node .. => none

def uncowLeaf (st : Store K T) (child : Slot) : Option (Store K T × Nat) := do
  match ← st.cells.read (← (← st.get child)) with
  | .leaf _ key value next => st.link child (.leaf generation key value next)
  | .node .. => none

/-- `while ((*child)->get_generation() == generation)`. -/
def skipOwn (st : Store K T) : Nat → Slot → Option Slot
  | 0, _ => none
  | fuel + 1, child => do
    let a ← (← st.get child)
    let cell ← st.cells.read a
    if cell.generation = generation then skipOwn st fuel (.next a)
    else return child

/-- `while (*child != leaf)`. -/
def uncowBefore (leaf : Nat) : Nat → Store K T → Slot →
    Option (Store K T × Slot)
  | 0, _, _ => none
  | fuel + 1, st, child => do
    if (← st.get child) = some leaf then return (st, child)
    else
      let (st, a) ← uncowLeaf generation st child
      uncowBefore leaf fuel st (.next a)

/-- The nodes that tell the hash of the existing keys from the new one, and the
place for the new key. -/
def disambiguate : Nat → Store K T → Slot → Nat → Nat →
    Option (Store K T × Slot)
  | 0, _, _, _, _ => none
  | fuel + 1, st, child, firstHash, hash => do
    let indexForExisting := firstHash % arity
    let indexForNew := hash % arity
    let newNodeArity := if indexForExisting = indexForNew then 1 else 2
    let bitmap := 1#32 <<< indexForExisting ||| 1#32 <<< indexForNew
    let positionForExisting := if indexForExisting < indexForNew then 1 else 0
    let positionForNew := if indexForNew < indexForExisting then 1 else 0
    let array := ((List.replicate newNodeArity none).set positionForNew none).set
      positionForExisting (← st.get child)
    let (st, n) ← allocNode generation st child newNodeArity bitmap array
    if indexForExisting ≠ indexForNew then
      return (st, .elem n positionForNew)
    else
      disambiguate fuel st (.elem n positionForNew) (firstHash / arity)
        (hash / arity)

/-- `new leaf` in front of the chain. -/
def insertLeaf [Inhabited T] (st : Store K T) (child : Slot) (k : K) :
    Option (Store K T × Nat) := do
  let next ← st.get child
  st.link child (.leaf generation k default next)

end

section

variable [BEq K] [Inhabited T] (hash : K → BitVec 64) (generation : Nat)

def hashKey (k : K) : Nat := (hash k).toNat

/-- The rest of `mut` at the end of the first loop.  The leaf of `k` comes with
the result, and whether it is new. -/
def place (st : Store K T) (child : Slot) (rest depth : Nat) (k : K) :
    Option (Store K T × Nat × Bool) := do
  let first ← st.get child
  match ← findLeaf st.cells k st.cells.next first with
  | some leaf =>
    let cell ← st.cells.read leaf
    if cell.generation ≠ generation then
      let child ← skipOwn generation st (st.cells.next + 1) child
      let (st, child) ← uncowBefore generation leaf (st.cells.next + 1) st child
      let (st, leaf) ← uncowLeaf generation st child
      return (st, leaf, false)
    else return (st, leaf, false)
  | none =>
    match first with
    | none =>
      let (st, leaf) ← insertLeaf generation st child k
      return (st, leaf, true)
    | some a =>
      match ← st.cells.read a with
      | .node .. => none
      | .leaf _ key _ _ =>
        guard (depth < 64)
        let firstHash := hashKey hash key >>> depth
        if firstHash ≠ rest then
          let (st, child) ← disambiguate generation maxLevels st child firstHash
            rest
          let (st, leaf) ← insertLeaf generation st child k
          return (st, leaf, true)
        else
          let (st, leaf) ← insertLeaf generation st child k
          return (st, leaf, true)

/-- `mut` without `assert_writable` and `++_size`. -/
def mutLeaf (st : Store K T) (k : K) : Option (Store K T × Nat × Bool) := do
  let (st, child, rest, depth) ←
    descend generation maxLevels st .root (hashKey hash k) 0
  place hash generation st child rest depth k

end

/-- The value of the leaf at `a`. -/
def valueAt (cells : Heap (Cell K T)) (a : Nat) : Option T :=
  match cells.read a with
  | some (.leaf _ _ value _) => some value
  | _ => none

/-- An assignment through a reference to that value. -/
def assign (cells : Heap (Cell K T)) (a : Nat) (x : T) :
    Option (Heap (Cell K T)) :=
  match cells.read a with
  | some (.leaf generation key _ next) =>
    some (cells.write a (.leaf generation key x next))
  | _ => none

/-! ## Reads -/

section

variable [BEq K] (hash : K → BitVec 64)

/-- The loop of `find` over the nodes. -/
def findChild (cells : Heap (Cell K T)) :
    Nat → Option Nat → Nat → Option (Option Nat)
  | _, none, _ => some none
  | 0, some _, _ => none
  | fuel + 1, some a, hash => do
    match ← cells.read a with
    | .leaf .. => return some a
    | .node _ bitmap array =>
      let index := hash % arity
      if hasBit bitmap index then
        let child ← array[popcount (bitmap >>> index) - 1]?
        findChild cells fuel child (hash / arity)
      else return none

/-- The value of `k`; `none` inside is `nullptr`. -/
def findValue (cells : Heap (Cell K T)) (root : Option Nat) (k : K) :
    Option (Option T) := do
  let child ← findChild cells maxLevels root (hashKey hash k)
  match ← findLeaf cells k cells.next child with
  | none => return none
  | some a =>
    match ← cells.read a with
    | .leaf _ _ value _ => return some value
    | .node .. => none

end

/-- The chain of leaves from `a` on. -/
def forEachLeaf (cells : Heap (Cell K T)) :
    Nat → Option Nat → Option (List (K × T))
  | _, none => some []
  | 0, some _ => none
  | fuel + 1, some a => do
    match ← cells.read a with
    | .leaf _ key value next =>
      let rest ← forEachLeaf cells fuel next
      return (key, value) :: rest
    | .node .. => none

/-- The pairs that the callback of `for_each` gets. -/
def forEachChild (cells : Heap (Cell K T)) : Nat → Nat → Option (List (K × T))
  | 0, _ => none
  | fuel + 1, a => do
    match ← cells.read a with
    | .leaf .. => forEachLeaf cells cells.next (some a)
    | .node _ bitmap array =>
      let parts ← (array.take (popcount bitmap)).mapM fun elem => do
        forEachChild cells fuel (← elem)
      return parts.flatten

/-! ## Destruction -/

/-- The loop over the leaves of this generation. -/
def freeLeaves (generation : Nat) :
    Nat → Heap (Cell K T) → Option Nat → Option (Heap (Cell K T))
  | _, cells, none => some cells
  | 0, _, some _ => none
  | fuel + 1, cells, some a => do
    match ← cells.read a with
    | .leaf leafGeneration _ _ next =>
      if leafGeneration = generation then
        freeLeaves generation fuel (cells.free a) next
      else return cells
    | .node .. => none

/-- The elements of the array are freed from the last to the first. -/
def freeChild (generation : Nat) :
    Nat → Heap (Cell K T) → Option Nat → Option (Heap (Cell K T))
  | _, cells, none => some cells
  | 0, _, some _ => none
  | fuel + 1, cells, some a => do
    match ← cells.read a with
    | .leaf .. => freeLeaves generation cells.next cells (some a)
    | .node nodeGeneration bitmap array =>
      if nodeGeneration = generation then
        let cells ← (array.take (popcount bitmap)).reverse.foldlM
          (fun cells elem => freeChild generation fuel cells elem) cells
        return cells.free a
      else return cells

end Map

end ViEqui.Gen
