import ViEqui.Lib.Heap

/-!
# The vector with copy-on-write limbs

`gen::vector` keeps its elements in limbs of `limbSize` elements.  A root
holds the pointers to the limbs and behind them one bit for each limb.  A copy
of a vector shares the root of its source (`last` is null then).  The first
change gives it a root of its own, in which the bit of every limb is set, and a
change in a limb whose bit is set copies that limb first.

A vector is the values of its fields.  Limbs, roots and the counters behind
`_debug_refcount` are cells of three heaps, and a pointer is the address of a
cell.  `last`, the end of the pointers of a root, is kept as its distance from
`start`.  A function has no result where the code fails an assertion, reads
memory that was freed or not written, or leaves the bounds of a limb, a root
or a bitmap.
-/

namespace ViEqui.Gen

variable {T : Type}

/-- A root: the pointers to the limbs and the bits behind them. -/
structure Root where
  limbs : List (Option Nat)
  bitmap : List (BitVec 8)
deriving DecidableEq, Repr

/-- Memory.  The slots of a limb are raw until an element is constructed in
them. -/
structure Memory (T : Type) where
  limbs : Heap (List (Option T)) := {}
  roots : Heap Root := {}
  counts : Heap Nat := {}
deriving Repr

/-- The fields of a `gen::vector`. -/
structure Vector where
  debugParent : Option Nat
  debugRefcount : Nat
  size : Nat
  start : Option Nat
  last : Option Nat
deriving DecidableEq, Repr

/-- The element in slot `k` of the limb at `a`. -/
def Memory.slot (m : Memory T) (a k : Nat) : Option T :=
  (m.limbs.read a).bind fun limb => (limb[k]?).join

/-- Placement new in slot `k` of the limb at `a`. -/
def Memory.construct (m : Memory T) (a k : Nat) (x : T) : Option (Memory T) := do
  let limb ← m.limbs.read a
  guard (k < limb.length)
  return { m with limbs := m.limbs.write a (limb.set k (some x)) }

/-- Assignment through a reference to slot `k` of the limb at `a`. -/
def Memory.assign (m : Memory T) (a k : Nat) (x : T) : Option (Memory T) := do
  let _ ← m.slot a k
  m.construct a k x

/-- `length` raw cells, with a copy of the first `n` cells of `source`. -/
def copyInto {α : Type} (source : List (Option α)) (n length : Nat) :
    Option (List (Option α)) := do
  guard (n ≤ length ∧ ∀ k < n, (source[k]?).join.isSome)
  return (List.range length).map fun k =>
    if k < n then (source[k]?).join else none

namespace Vector

def bitsPerUint : Nat := 8

def nextCapacity (oldCapacity : Nat) : Nat :=
  max (oldCapacity + 2) (oldCapacity + (oldCapacity + 1) / 2)

def bitmapSize (capacity : Nat) : Nat :=
  (capacity + bitsPerUint - 1) / bitsPerUint

def limbCount (limbSize : Nat) (v : Vector) : Nat :=
  (v.size + limbSize - 1) / limbSize

/-- The root behind `start`. -/
def root (m : Memory T) (v : Vector) : Option Root := v.start.bind m.roots.read

/-- `start[i]`. -/
def limbAt (m : Memory T) (v : Vector) (i : Nat) : Option Nat :=
  (v.root m).bind fun root => (root.limbs[i]?).join

def deref (limbSize : Nat) (m : Memory T) (v : Vector) (ix : Nat) : Option T :=
  (v.limbAt m (ix / limbSize)).bind fun a => m.slot a (ix % limbSize)

def limbIsCow (m : Memory T) (v : Vector) (limbIndex : Nat) : Option Bool := do
  let _ ← v.last
  let root ← v.root m
  let byte ← root.bitmap[limbIndex / bitsPerUint]?
  return byte >>> (limbIndex % bitsPerUint) &&& 1#8 == 1#8

def assertWritable (m : Memory T) (v : Vector) : Option Unit := do
  guard ((← m.counts.read v.debugRefcount) = 0)

/-! ## Copies of shared limbs and roots -/

def uncow (limbSize : Nat) (m : Memory T) (v : Vector) (limbIndex : Nat) :
    Option (Memory T) := do
  guard ((← v.limbIsCow m limbIndex) = true)
  let limbValidElements := min (v.size - limbIndex * limbSize) limbSize
  guard (0 < limbValidElements)
  let oldLimb ← m.limbs.read (← v.limbAt m limbIndex)
  let newLimb ← copyInto oldLimb limbValidElements limbSize
  let start ← v.start
  let root ← m.roots.read start
  let byte ← root.bitmap[limbIndex / bitsPerUint]?
  return { m with
    limbs := m.limbs.alloc newLimb
    roots := m.roots.write start
      { limbs := root.limbs.set limbIndex (some m.limbs.next)
        bitmap := root.bitmap.set (limbIndex / bitsPerUint)
          (byte &&& ~~~(1#8 <<< (limbIndex % bitsPerUint))) } }

def uncowIfNeeded (limbSize : Nat) (m : Memory T) (v : Vector)
    (limbIndex : Nat) : Option (Memory T) := do
  if ← v.limbIsCow m limbIndex then v.uncow limbSize m limbIndex else return m

/-- The bits of a root that shares its first `oldCapacity` limbs. -/
def cowBitmap (oldCapacity bitmapUints : Nat) : List (BitVec 8) :=
  List.replicate (oldCapacity / bitsPerUint) (~~~0#8) ++
    (1#8 <<< (oldCapacity % bitsPerUint) - 1#8) ::
      List.replicate (bitmapUints - (oldCapacity / bitsPerUint + 1)) 0

def uncowRoot (limbSize : Nat) (m : Memory T) (v : Vector) :
    Option (Memory T × Vector) := do
  guard (v.last = none)
  let source ← v.root m
  let oldCapacity := v.limbCount limbSize
  let newCapacity := nextCapacity oldCapacity
  let bitmapUints := bitmapSize newCapacity
  guard (oldCapacity / bitsPerUint < bitmapUints)
  let limbs ← copyInto source.limbs oldCapacity newCapacity
  return ({ m with
      roots := m.roots.alloc
        { limbs := limbs, bitmap := cowBitmap oldCapacity bitmapUints } },
    { v with start := some m.roots.next, last := some newCapacity })

def uncowRootIfNeeded (limbSize : Nat) (m : Memory T) (v : Vector) :
    Option (Memory T × Vector) :=
  if v.last = none ∧ v.start ≠ none then v.uncowRoot limbSize m
  else some (m, v)

def uncowRootIfNeededAssumeNonempty (limbSize : Nat) (m : Memory T)
    (v : Vector) : Option (Memory T × Vector) := do
  guard (v.start ≠ none)
  if v.last = none then v.uncowRoot limbSize m else return (m, v)

/-- What `grow` copies: a vector without a root has no limbs and no bits. -/
def rootOrEmpty (m : Memory T) (v : Vector) : Option Root :=
  match v.start with
  | none => some { limbs := [], bitmap := [] }
  | some start => m.roots.read start

/-- `operator delete` of the old root, which may be null. -/
def deleteRoot (roots : Heap Root) (v : Vector) : Heap Root :=
  match v.start with
  | none => roots
  | some start => roots.free start

/-- The larger root that `grow` moves the limbs to. -/
def growRoot (m : Memory T) (v : Vector) : Option (Memory T × Vector) := do
  let source ← v.rootOrEmpty m
  let oldCapacity := v.last.getD 0
  let newCapacity := nextCapacity oldCapacity
  let limbs ← copyInto source.limbs oldCapacity newCapacity
  let oldBitmapUints := bitmapSize oldCapacity
  guard (oldBitmapUints ≤ source.bitmap.length)
  let bitmap := source.bitmap.take oldBitmapUints ++
    List.replicate (bitmapSize newCapacity - oldBitmapUints) 0
  return ({ m with
      roots := v.deleteRoot
        (m.roots.alloc { limbs := limbs, bitmap := bitmap }) },
    { v with start := some m.roots.next, last := some newCapacity })

def grow (limbSize : Nat) (m : Memory T) (v : Vector) :
    Option (Memory T × Vector) := do
  guard (v.last ≠ none ∨ v.size = 0)
  guard (v.size % limbSize = 0)
  let (m, v) ←
    (if v.limbCount limbSize = v.last.getD 0 then v.growRoot m else some (m, v))
  guard (v.limbCount limbSize < v.last.getD 0)
  let start ← v.start
  let root ← m.roots.read start
  return ({ m with
      limbs := m.limbs.alloc (List.replicate limbSize none)
      roots := m.roots.write start
        { root with
          limbs := root.limbs.set (v.limbCount limbSize) (some m.limbs.next) } },
    v)

/-! ## Changes -/

/-- The slot of the new element comes with the result. -/
def pushBackInternal (limbSize : Nat) (m : Memory T) (v : Vector) :
    Option (Memory T × Vector × Nat × Nat) := do
  v.assertWritable m
  let limb := v.size / limbSize
  let limbIx := v.size % limbSize
  let (m, v) ← v.uncowRootIfNeeded limbSize m
  let (m, v) ←
    (if limbIx ≠ 0 then (v.uncowIfNeeded limbSize m limb).map fun m => (m, v)
    else v.grow limbSize m)
  let v := { v with size := v.size + 1 }
  return (m, v, ← v.limbAt m limb, limbIx)

def pushBack (limbSize : Nat) (m : Memory T) (v : Vector) (x : T) :
    Option (Memory T × Vector) := do
  let (m, v, a, k) ← v.pushBackInternal limbSize m
  return (← m.construct a k x, v)

/-- The reference to the new element comes with the result. -/
def emplaceBack (limbSize : Nat) (m : Memory T) (v : Vector) (x : T) :
    Option (Memory T × Vector × Nat × Nat) := do
  let (m, v, a, k) ← v.pushBackInternal limbSize m
  return (← m.construct a k x, v, a, k)

/-- `mut` gives a reference to the element. -/
def mutRef (limbSize : Nat) (m : Memory T) (v : Vector) (ix : Nat) :
    Option (Memory T × Vector × Nat × Nat) := do
  guard (ix < v.size)
  v.assertWritable m
  let limb := ix / limbSize
  let limbIx := ix % limbSize
  let (m, v) ← v.uncowRootIfNeededAssumeNonempty limbSize m
  let m ← v.uncowIfNeeded limbSize m limb
  return (m, v, ← v.limbAt m limb, limbIx)

/-! ## Reads -/

/-- `operator[]`. -/
def get (limbSize : Nat) (m : Memory T) (v : Vector) (ix : Nat) : Option T := do
  guard (ix < v.size)
  v.deref limbSize m ix

def back (limbSize : Nat) (m : Memory T) (v : Vector) : Option T :=
  v.get limbSize m (v.size - 1)

/-- `none` inside is the exception `std::out_of_range`. -/
def atIndex (limbSize : Nat) (m : Memory T) (v : Vector) (ix : Nat) :
    Option (Option T) :=
  if v.size ≤ ix then some none else (v.deref limbSize m ix).map some

/-- The limbs and slots in the order of the loops of `for_each` and
`all_of`: the full limbs and then the rest. -/
def positions (limbSize size : Nat) : List (Nat × Nat) :=
  (List.range (size / limbSize)).flatMap
      (fun limb => (List.range limbSize).map fun limbIx => (limb, limbIx)) ++
    (List.range (size % limbSize)).map fun limbIx => (size / limbSize, limbIx)

/-- `(**limb)[limb_ix]`. -/
def element (m : Memory T) (v : Vector) (position : Nat × Nat) : Option T :=
  (v.limbAt m position.1).bind fun a => m.slot a position.2

/-- The elements that the callback of `for_each` gets. -/
def forEach (limbSize : Nat) (m : Memory T) (v : Vector) : Option (List T) :=
  (positions limbSize v.size).mapM (v.element m)

/-- The loop of `all_of`, which ends at the first element without `p`. -/
def allOfLoop (m : Memory T) (v : Vector) (p : T → Bool) :
    List (Nat × Nat) → Option Bool
  | [] => some true
  | position :: rest => do
    if p (← v.element m position) then allOfLoop m v p rest else return false

def allOf (limbSize : Nat) (m : Memory T) (v : Vector) (p : T → Bool) :
    Option Bool :=
  v.allOfLoop m p (positions limbSize v.size)

/-! ## Construction, copy, move and destruction -/

/-- `vector()`. -/
def construct (m : Memory T) : Memory T × Vector :=
  ({ m with counts := m.counts.alloc 0 },
    { debugParent := none, debugRefcount := m.counts.next, size := 0
      start := none, last := none })

/-- `vector(const vector &)`. -/
def copy (m : Memory T) (other : Vector) : Option (Memory T × Vector) := do
  let counts := m.counts.alloc 0
  let v : Vector :=
    { debugParent := none, debugRefcount := m.counts.next, size := other.size
      start := other.start, last := none }
  match other.start with
  | none => return ({ m with counts := counts }, v)
  | some _ =>
    let count ← counts.read other.debugRefcount
    return ({ m with counts := counts.write other.debugRefcount (count + 1) },
      { v with debugParent := some other.debugRefcount })

/-- `vector(vector &&)`: the new vector and what is left of `other`. -/
def move (m : Memory T) (other : Vector) : Memory T × Vector × Vector :=
  ({ m with counts := m.counts.alloc 0 }, other,
    { debugParent := none, debugRefcount := m.counts.next, size := 0
      start := none, last := none })

/-- One turn of the loop of `~vector` over the limbs. -/
def destroyLimb (m : Memory T) (v : Vector) (i elements : Nat) :
    Option (Memory T) := do
  if ← v.limbIsCow m i then return m
  let a ← v.limbAt m i
  guard (∀ k < elements, (m.slot a k).isSome)
  return { m with limbs := m.limbs.free a }

/-- The limbs and the root that `~vector` deletes. -/
def destroyOwned (limbSize : Nat) (m : Memory T) (v : Vector) :
    Option (Memory T) := do
  let fullLimbCount := v.size / limbSize
  let m ← (List.range fullLimbCount).foldlM
    (fun m i => v.destroyLimb m i limbSize) m
  let elementsInLastLimb := v.size % limbSize
  let m ←
    (if elementsInLastLimb ≠ 0 then
      v.destroyLimb m fullLimbCount elementsInLastLimb
    else some m)
  let start ← v.start
  return { m with roots := m.roots.free start }

/-- `if (_debug_parent) (*_debug_parent)--`. -/
def releaseParent (m : Memory T) (v : Vector) : Option (Memory T) :=
  match v.debugParent with
  | none => some m
  | some parent => do
    let count ← m.counts.read parent
    return { m with counts := m.counts.write parent (count - 1) }

/-- `~vector()`, with the end of `_debug_refcount`. -/
def destroy (limbSize : Nat) (m : Memory T) (v : Vector) :
    Option (Memory T) := do
  v.assertWritable m
  let m ← v.releaseParent m
  let m ← (if v.last ≠ none then v.destroyOwned limbSize m else some m)
  return { m with counts := m.counts.free v.debugRefcount }

end Vector

end ViEqui.Gen
