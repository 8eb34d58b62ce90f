import ViEqui.Power.Observation
import ViEqui.Power.Operations
import ViEqui.Power.Normalise
import Mathlib.Data.List.ReduceOption

/-!
# The parameters of an event

`populate_parameters` enumerates the choices of an event, one byte access after
another: the coherence positions of a store, and the sources of a load, that SC PER
LOCATION allows.  What is left is checked against the other axioms.
-/

namespace ViEqui.Power

open Worklist

/-- The memory model, and the memory before the run. -/
structure Config where
  model : MemoryModel
  initial : Nat → UInt8 := fun _ => 0

/-- What `find_poloc` finds: the indices of the closest accesses to a byte that are
po-before and po-behind an event, or 0, with their positions and types. -/
structure Poloc where
  before : Nat := 0
  beforePos : Nat := 0
  beforeType : AccessType := .load
  after : Nat := 0
  afterPos : Nat := 0
  afterType : AccessType := .load
deriving DecidableEq, Repr

/-- The relation `poloc`, or `cc0`, with the neighbours in it. -/
def Poloc.enter (P : Poloc) (proc : Nat) (R : Rel) : Rel where
  fwd := if P.after ≠ 0 then R.fwd.insert ⟨proc, P.after⟩ else R.fwd
  bwd := if P.before ≠ 0 then R.bwd.insert ⟨proc, P.before⟩ else R.bwd

namespace TB

/-! ## SC per location -/

/-- The stores of the thread in the coherence order, from position `i` on, up to the
first one that is po-behind. -/
def findPolocStores (iid : IID) : Nat → List IID → Poloc → Poloc
  | _, [], P => P
  | i, w :: ws, P =>
    if w.pid = iid.pid then
      if w.idx < iid.idx then
        findPolocStores iid (i + 1) ws
          { P with before := max P.before w.idx, beforePos := i, beforeType := .store }
      else
        { P with
          after := if P.after ≠ 0 then min P.after w.idx else w.idx
          afterPos := i
          afterType := .store }
    else findPolocStores iid (i + 1) ws P

/-- The loads of the thread at position `i`, up to the first one that is po-behind. -/
def findPolocLoads (iid : IID) (i : Nat) : List IID → Poloc → Poloc
  | [], P => P
  | l :: ls, P =>
    if l.pid = iid.pid then
      if l.idx < iid.idx then
        findPolocLoads iid i ls (if P.before < l.idx then
          { P with before := l.idx, beforePos := i, beforeType := .load } else P)
      else if P.after = 0 ∨ l.idx < P.after then
        { P with after := l.idx, afterPos := i, afterType := .load }
      else P
    else findPolocLoads iid i ls P

/-- `find_poloc`. -/
def findPoloc (iid : IID) (m : Mem) : Poloc :=
  let P := findPolocStores iid 0 m.coherence {}
  let a := if P.before ≠ 0 then P.beforePos + 1 else 0
  let b := if P.after ≠ 0 then P.afterPos + 1 else m.loads.length
  (List.range' a (b - a)).foldl (fun P i => findPolocLoads iid i (m.loads.getD i ∅).vec P) P

/-- The events before `e` in com and po-loc. -/
def comPolocBwd (tb : TB) (e : IID) : List IID :=
  let R := (tb.getEvt e).rel
  R.com.bwd.vec ++ R.poloc.bwd.vec

/-- `com_poloc_bwd_search`: the events that are coloured afterwards. -/
def comPolocBwdSearch (tb : TB) (coloured : List IID) (inits : VecSet IID) : List IID :=
  sweep tb.comPolocBwd (tb.sweepFuel tb.comPolocBwd inits.vec) coloured inits.vec.reverse

/-- The events before the new event, with the choices made so far. -/
def colouredBefore (tb : TB) (B : Param) : List IID :=
  tb.comPolocBwdSearch (tb.comPolocBwdSearch [] B.rel.com.bwd) B.rel.poloc.bwd

/-- The events behind the new event, with the choices made so far. -/
def comPolocAfter (B : Param) : VecSet IID := B.rel.com.fwd.insertAll B.rel.poloc.fwd

/-- One of `tgt` is coloured. -/
def hits (coloured : List IID) (tgt : VecSet IID) : Bool := tgt.vec.any (· ∈ coloured)

/-- The last position where the store would not be before one of `tgt`.  The
colours stay from one position to the next. -/
def storeLast (tb : TB) (m : Mem) (tgt : VecSet IID) (last : Int) :
    List Nat → List IID → Int
  | [], _ => last
  | i :: is, coloured =>
    let store := if 0 < i then
      tb.comPolocBwdSearch coloured (.ofList [m.coherence.getD (i - 1) ⟨0, 0⟩]) else coloured
    if 0 < i ∧ hits store tgt then i - 1
    else
      let loads := tb.comPolocBwdSearch store (m.loads.getD i ∅)
      if hits loads tgt then i - 1 else tb.storeLast m tgt last is loads

/-- The coherence positions for a store, where `P` are its neighbours. -/
def storeRange (tb : TB) (m : Mem) (P : Poloc) (B : Param) : Int × Int :=
  let first : Int := if P.before = 0 then 0
    else if P.beforeType = .store then P.beforePos + 1 else P.beforePos
  let last : Int := if P.after = 0 then m.coherence.length
    else if P.afterType = .store then P.afterPos else P.afterPos - 1
  let coloured := tb.colouredBefore B
  -- behind the stores and the loads that the event is behind
  let first : Int := match ((List.range m.coherence.length).filter fun (i : Nat) =>
      first ≤ i ∧ m.coherence.getD i ⟨0, 0⟩ ∈ coloured).getLast? with
    | some i => i + 1
    | none => first
  let first : Int := match ((List.range m.loads.length).filter fun (i : Nat) =>
      first < i ∧ (m.loads.getD i ∅).vec.any (· ∈ coloured)).getLast? with
    | some i => i
    | none => first
  (first, tb.storeLast m (comPolocAfter B) last
    (List.range' first.toNat (last + 1 - first).toNat) coloured)

/-- The parameter with the store at coherence position `i`. -/
def storeParam (proc : Nat) (m : Mem) (B : Param) (poloc cc0 : Rel) (i : Nat) : Param :=
  let co := B.rel.co
  let com := B.rel.com
  let before := m.coherence.getD (i - 1) ⟨0, 0⟩
  let behind := m.coherence.getD i ⟨0, 0⟩
  let co := if 0 < i ∧ m.coherence ≠ [] then { co with bwd := co.bwd.insert before } else co
  let com := if 0 < i ∧ m.coherence ≠ [] then { com with bwd := com.bwd.insert before } else com
  let co := if i < m.coherence.length then { co with fwd := co.fwd.insert behind } else co
  let com := if i < m.coherence.length then { com with fwd := com.fwd.insert behind } else com
  let detour := ((List.range' i (m.coherence.length - i)).filter fun j =>
    (m.coherence.getD j ⟨0, 0⟩).pid ≠ proc).flatMap fun j =>
      (m.loads.getD (j + 1) ∅).vec.filter fun l => l.pid = proc
  { B with
    choices := B.choices ++ [.coherence i]
    rel := { B.rel with
      co
      -- the loads at the position are before the store in fr
      com := { com with bwd := com.bwd.insertAll (m.loads.getD i ∅) }
      poloc
      ci0 := { B.rel.ci0 with fwd := detour.foldl VecSet.insert B.rel.ci0.fwd }
      cc0 } }

/-- `populate_parameters_store`. -/
def populateParametersStore (cfg : Config) (tb : TB) (iid : IID) (S : ByteAccess) (B : Param) :
    List Param :=
  let m := tb.mem S.addr
  let P := findPoloc iid m
  let (first, last) := tb.storeRange m P B
  let cc0 := if cfg.model = .power then P.enter iid.pid B.rel.cc0 else B.rel.cc0
  (List.range' first.toNat (last + 1 - first).toNat).map
    (storeParam iid.pid m B (P.enter iid.pid B.rel.poloc) cc0)

/-- The last source of a load that does not put it behind one of `tgt`. -/
def loadLast (tb : TB) (m : Mem) (tgt : VecSet IID) (last : Int) : List Nat → List IID → Int
  | [], _ => last
  | i :: is, coloured =>
    let coloured := tb.comPolocBwdSearch coloured (.ofList [m.coherence.getD i ⟨0, 0⟩])
    if hits coloured tgt then i - 1 else tb.loadLast m tgt last is coloured

/-- The positions of the sources for a load, where -1 is the initial value and `P`
are the neighbours of the load. -/
def loadRange (tb : TB) (m : Mem) (P : Poloc) (B : Param) : Int × Int :=
  let first : Int := if P.before = 0 then -1
    else if P.beforeType = .store then P.beforePos else P.beforePos - 1
  let last : Int := if P.after = 0 then m.coherence.length - 1 else P.afterPos - 1
  let coloured := tb.colouredBefore B
  let first : Int := match ((List.range m.coherence.length).filter fun (i : Nat) =>
      first < i ∧ m.coherence.getD i ⟨0, 0⟩ ∈ coloured).getLast? with
    | some i => i
    | none => first
  (first, tb.loadLast m (comPolocAfter B) last
    (List.range' (max 0 first).toNat (m.coherence.length - (max 0 first).toNat)) coloured)

/-- The parameter with the load from the store at position `i`, or from the initial
value. -/
def loadParam (proc : Nat) (m : Mem) (B : Param) (poloc cc0 : Rel) (i : Int) : Param :=
  let rel := B.rel
  let src := m.coherence.getD i.toNat ⟨0, 0⟩
  let ofProc (l : List IID) : List IID := l.filter fun e => e.pid = proc
  let rel := if i = -1 then rel else
    let rel := { rel with
      rf := { rel.rf with bwd := rel.rf.bwd.insert src }
      com := { rel.com with bwd := rel.com.bwd.insert src } }
    if src.pid = proc then { rel with ii0 := { rel.ii0 with bwd := rel.ii0.bwd.insert src } }
    else
      let detour := ofProc (m.coherence.take i.toNat)
      let rdwBwd := (List.range (i.toNat + 1)).flatMap fun j => ofProc (m.loads.getD j ∅).vec
      let rdwFwd := ((List.range' (i.toNat + 1) (m.coherence.length - (i.toNat + 1))).filter fun j =>
        (m.coherence.getD j ⟨0, 0⟩).pid ≠ proc).flatMap fun j => ofProc (m.loads.getD (j + 1) ∅).vec
      { rel with
        hb := { rel.hb with bwd := rel.hb.bwd.insert src }
        ci0 := { rel.ci0 with bwd := detour.foldl VecSet.insert rel.ci0.bwd }
        ii0 := {
          bwd := rdwBwd.foldl VecSet.insert rel.ii0.bwd
          fwd := rdwFwd.foldl VecSet.insert rel.ii0.fwd } }
  let com := if i < m.coherence.length - 1 then
    { rel.com with fwd := rel.com.fwd.insert (m.coherence.getD (i + 1).toNat ⟨0, 0⟩) } else rel.com
  { B with
    choices := B.choices ++ [.source (if i = -1 then ⟨0, 0⟩ else src)]
    rel := { rel with com, poloc, cc0 } }

/-- `populate_parameters_load`. -/
def populateParametersLoad (cfg : Config) (tb : TB) (iid : IID) (L : ByteAccess) (B : Param) :
    List Param :=
  let m := tb.mem L.addr
  let P := findPoloc iid m
  let (first, last) := tb.loadRange m P B
  let cc0 := if cfg.model = .power then P.enter iid.pid B.rel.cc0 else B.rel.cc0
  ((List.range (last + 1 - first).toNat).map fun (k : Nat) =>
    loadParam iid.pid m B (P.enter iid.pid B.rel.poloc) cc0 (last - k))

/-! ## The relations that do not depend on choices -/

/-- `fences_to_hb`: the edges of hb that fences give between an event and the
committed events. -/
def fencesToHb (tb : TB) (iid : IID) : Rel :=
  let evt := tb.getEvt iid
  let fchCount := (tb.thread iid.pid).fchCount
  let a := max evt.lwsyncIdxBefore evt.syncIdxBefore
  let a := if evt.hasStore then max a evt.eieioIdxBefore else a
  let b := evt.lwsyncIdxAfter
  let b := if b = -1 ∨ evt.syncIdxAfter ≠ -1 ∧ evt.syncIdxAfter < b then evt.syncIdxAfter else b
  let b := if evt.hasStore ∧ (b = -1 ∨ evt.eieioIdxAfter ≠ -1 ∧ evt.eieioIdxAfter < b) then
    evt.eieioIdxAfter else b
  let bwd := (List.range a.toNat).filter fun (i : Nat) =>
    let evt2 := tb.fchAt iid.pid i
    evt2.committed ∧ (i < evt.syncIdxBefore ∨
      i < evt.lwsyncIdxBefore ∧ (evt.hasStore ∨ evt2.hasLoad) ∨
      i < evt.eieioIdxBefore ∧ evt.hasStore ∧ evt2.hasStore)
  let fwd := if b = -1 then [] else
    (List.range' b.toNat (fchCount - b.toNat)).filter fun (i : Nat) =>
      let evt2 := tb.fchAt iid.pid i
      evt2.committed ∧ (evt.syncIdxAfter ≤ i ∨
        evt.lwsyncIdxAfter ≤ i ∧ (evt2.hasStore ∨ evt.hasLoad) ∨
        evt.eieioIdxAfter ≤ i ∧ evt.hasStore ∧ evt2.hasStore)
  { bwd := .ofList (bwd.map fun i => ⟨iid.pid, i + 1⟩)
    fwd := .ofList (fwd.map fun i => ⟨iid.pid, i + 1⟩) }

/-- The loops for addr;po: what they enter into cc0. -/
def addrPo (tb : TB) (iid : IID) : Rel :=
  let fchCount := (tb.thread iid.pid).fchCount
  let bwd := (List.range (iid.idx - 1)).flatMap fun i =>
    ((tb.fchAt iid.pid i).addrDeps.vec.filter fun j => (tb.fchAt iid.pid (j - 1)).committed).map
      fun _ => (⟨iid.pid, i⟩ : IID)
  -- all events behind the first one with an address that depends on this event
  let fwd := match (List.range' iid.idx (fchCount - iid.idx)).find? fun i =>
      iid.idx ∈ (tb.fchAt iid.pid i).addrDeps with
    | some i => ((List.range' (i + 1) (fchCount - (i + 1))).filter fun j =>
        (tb.fchAt iid.pid j).committed).map fun j => (⟨iid.pid, j + 1⟩ : IID)
    | none => []
  { bwd := .ofList bwd, fwd := .ofList fwd }

/-- `B0`: the parameter before any choice. -/
def initialParam (tb : TB) (iid : IID) : Param :=
  let evt := tb.getEvt iid
  let ofProc (deps : VecSet Nat) : List IID := deps.vec.map fun i => ⟨iid.pid, i⟩
  let po := tb.addrPo iid
  { rel := {
      hb := tb.fencesToHb iid
      ii0 := { bwd := .ofList (ofProc evt.addrDeps ++ ofProc evt.dataDeps) }
      ci0 := { bwd := .ofList (ofProc evt.ctrlIsyncDeps) }
      cc0 := {
        bwd := .ofList (ofProc evt.addrDeps ++ ofProc evt.dataDeps ++ ofProc evt.ctrlDeps ++
          po.bwd.vec)
        fwd := po.fwd } } }

/-! ## The parameters -/

/-- `get_load_values`. -/
def getLoadValues (cfg : Config) (tb : TB) (iid : IID) (choices : List Choice) :
    List (List UInt8) :=
  let evt := tb.getEvt iid
  (List.range evt.loadCount).map fun i =>
    let addr := (evt.access i).addr
    (List.range addr.size).map fun j =>
      let p := addr.ref + j
      let k := evt.baccesses.findIdx fun B => B.addr = p && B.type = .load
      let src := (choiceAt choices k).src
      if src.idx = 0 then cfg.initial p
      else match (tb.getEvt src).baccesses.find? fun A => A.addr = p && A.type = .store with
        | some A => A.data
        | none => 0

/-- The choices for the byte accesses, one after another. -/
def chooseAll (cfg : Config) (tb : TB) (iid : IID) (prm : List Param) : List Param :=
  (tb.getEvt iid).baccesses.foldl (fun prm BA => prm.flatMap fun B =>
    match BA.type with
    | .store => tb.populateParametersStore cfg iid BA B
    | .load => tb.populateParametersLoad cfg iid BA B) prm

/-- The loaded values are as required. -/
def meetsLoadReqs (cfg : Config) (tb : TB) (iid : IID) (choices : List Choice) : Bool :=
  let evt := tb.getEvt iid
  let values := tb.getLoadValues cfg iid choices
  (List.range evt.loadCount).all fun i =>
    match (evt.access i).loadReq with
    | some f => f (values.getD i [])
    | none => true

/-- Extends the relations of a parameter, and checks it against the axioms.  Outer
`none`: the assertion of NO THIN AIR fails. -/
def checkParam (cfg : Config) (tb : TB) (iid : IID) (B : Param) : Option (Option Param) :=
  let (rel, EHB) := tb.ppoToHb iid B.rel
  if tb.noThinAir iid rel EHB then
    let (rel, ER) := tb.calcProp iid rel { B.ER with EHB }
    some (if tb.propagation iid rel ER ∧ tb.observation iid rel ER.EHB ∧
        tb.meetsLoadReqs cfg iid B.choices then
      some { choices := B.choices, rel, ER } else none)
  else if cfg.model = .power then none else some none

/-- `populate_parameters`: the new parameters. -/
def populateParameters (cfg : Config) (tb : TB) (iid : IID) : Option (List Param) :=
  if (tb.getEvt iid).newParams = [] then
    ((tb.chooseAll cfg iid [tb.initialParam iid]).mapM (tb.checkParam cfg iid)).map List.reduceOption
  else none

end TB

end ViEqui.Power
