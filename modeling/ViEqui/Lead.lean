import ViEqui.Backseq
import ViEqui.Formula

/-!
# Leads

`ViewEqTraceBuilder::Lead`: a start to explore, the constraint to keep while
doing so, and their merge, with the comparisons of leads up to view
adjustment.
-/

namespace ViEqui

open AssocMap

/-- `Lead`. -/
structure Lead where
  /-- sequence of the previous trace to be maintained -/
  constraint : Sequence := []
  /-- new sequence to explore -/
  start : Sequence := []
  /-- pairs that must not be explored -/
  forbidden : SOPFormula := {}
  /-- `consistent_merge(start, constraint)` -/
  mergedSequence : EventSequence := []
  isDone : Bool := false
  pendingAdditionOfRmwWrite : Bool := false
  pendingRmwWrite : IID := ⟨0, 0⟩
deriving DecidableEq, Repr

instance : Inhabited Lead := ⟨{}⟩

namespace Lead

/-! ## Constructors

A constructor calls `add_rmw_write()` last, which does nothing since no rmw
write is pending in a new lead. -/

/-- `Lead(l, f)`: a copy with another formula.  The copy is not done and has
no pending rmw write. -/
def withForbidden (l : Lead) (f : SOPFormula) : Lead :=
  { constraint := l.constraint, start := l.start, forbidden := f,
    mergedSequence := l.mergedSequence }

/-- `Lead(c, s, f, mem)`.  The merge adjusts the start and the constraint of
the lead in place. -/
def ofConstraint (fuel : Nat) (c : Container) (constraint : EventSequence)
    (start : Sequence) (f : SOPFormula) (mem : Memory) : Option Lead := do
  let m ← start.consistentMerge fuel c constraint.toIidSequence
  return { constraint := m.other, start := m.primary, forbidden := f,
           mergedSequence := m.result.toEventSequenceFrom c constraint mem }

/-- `Lead(s, f, mem)`. -/
def ofStart (c : Container) (start : Sequence) (f : SOPFormula)
    (mem : Memory) : Lead :=
  { start, forbidden := f, mergedSequence := start.toEventSequence c mem }

/-- `Lead(s, f)`. -/
def ofEvents (s : EventSequence) (f : SOPFormula) : Lead :=
  { start := s.toIidSequence, forbidden := f, mergedSequence := s }

/-! ## Rmw writes -/

/-- `add_rmw_write(read, write)`. -/
def addRmwWrite (c : Container) (l : Lead) (rmwRead rmwWrite : IID) : Lead :=
  if l.mergedSequence.has rmwWrite then l
  else if !l.mergedSequence.has rmwRead then l
  else
    { l with
      start := l.start.addRmwWrite rmwRead rmwWrite
      constraint := l.constraint.addRmwWrite rmwRead rmwWrite
      mergedSequence := l.mergedSequence.addRmwWrite c rmwRead rmwWrite }

/-- `update_pending_rmw_write(write)`. -/
def updatePendingRmwWrite (c : Container) (l : Lead) (rmwWrite : IID) : Lead :=
  let rmwRead : IID := ⟨rmwWrite.pid, rmwWrite.idx - 1⟩
  if l.mergedSequence.has rmwWrite then l
  else if !l.mergedSequence.has rmwRead then l
  else
    { l with
      pendingAdditionOfRmwWrite := true
      pendingRmwWrite := rmwWrite
      mergedSequence := l.mergedSequence.addRmwWrite c rmwRead rmwWrite }

/-! ## Comparison of leads -/

/-- `Sequence::isprefix`.  It reads past the end of a shorter `seq`; the
model takes what it reads there as different. -/
def isPrefix : Sequence → Sequence → Bool
  | [], _ => true
  | _ :: _, [] => false
  | e :: s, e' :: s' => e = e' && isPrefix s s'

/-- The loop of `VA_isprefix` over this lead: the rest of the other sequence
and the memory behind this one. -/
def prefixLoop : EventSequence → EventSequence → Memory →
    Option (EventSequence × Memory)
  | [], suffix, mem => some (suffix, mem)
  | e :: s, suffix, mem =>
    match suffix.findIid e.iid with
    | none => none
    | some e' =>
      if e.isRead && e'.value ≠ e.value then none
      else
        prefixLoop s (suffix.eraseIid e.iid)
          (if e.isWrite then insert mem e.object e.value else mem)

/-- The loop over the suffix: its reads keep their values behind the
prefix. -/
def suffixLoop : EventSequence → Memory → Bool
  | [], _ => true
  | e :: s, mem =>
    if e.isRead then
      if (find? mem e.object).any (· ≠ e.value) then false
      else suffixLoop s mem
    else suffixLoop s (insert mem e.object e.value)

/-- `VA_isprefix`. -/
def vaIsPrefix (l l' : Lead) : Bool :=
  isPrefix l.mergedSequence.toIidSequence l'.mergedSequence.toIidSequence ||
    match prefixLoop l.mergedSequence l'.mergedSequence [] with
    | none => false
    | some (suffix, mem) => suffixLoop suffix mem

/-- The loop of `VA_isweakly_prefix` over this lead: events that are not in
the other lead are passed over. -/
def weakPrefixLoop : EventSequence → EventSequence → Memory →
    Option (EventSequence × Memory)
  | [], suffix, mem => some (suffix, mem)
  | e :: s, suffix, mem =>
    let mem' := if e.isWrite then insert mem e.object e.value else mem
    match suffix.findIid e.iid with
    | none => weakPrefixLoop s suffix mem'
    | some e' =>
      if e.isRead && e'.value ≠ e.value then none
      else weakPrefixLoop s (suffix.eraseIid e.iid) mem'

/-- `VA_isweakly_prefix`. -/
def vaIsWeaklyPrefix (l l' : Lead) : Bool :=
  match weakPrefixLoop l.mergedSequence l'.mergedSequence [] with
  | none => false
  | some (suffix, mem) => suffixLoop suffix mem

/-- `VA_isweakly_equivalent`. -/
def vaIsWeaklyEquivalent (l l' : Lead) : Bool :=
  l.vaIsWeaklyPrefix l' && l'.vaIsWeaklyPrefix l

/-- The comparison of two `read_value_map`s at the end of
`VA_equivalent`. -/
def sameReadValues (m m' : Map IID Value) : Bool :=
  m.length = m'.length && m.all (fun e => find? m' e.1 = some e.2)

/-- `VA_equivalent`. -/
def vaEquivalent (fuel : Nat) (l l' : Lead) : Option Bool :=
  if l.mergedSequence.toIidSequence = l'.mergedSequence.toIidSequence then
    some true
  else do
    if ← l.mergedSequence.vaEqual fuel l'.mergedSequence then return true
    else
      return sameReadValues l.mergedSequence.readValueMap
        l'.mergedSequence.readValueMap

/-- `VA_suffix`. -/
def vaSuffix (l pre : Lead) : Sequence :=
  let suffix := pre.mergedSequence.foldl
    (fun (s : EventSequence) e => s.eraseIid e.iid) l.mergedSequence
  let suffix :=
    if l.pendingAdditionOfRmwWrite && suffix.has l.pendingRmwWrite then
      suffix.eraseIid l.pendingRmwWrite
    else suffix
  suffix.toIidSequence

/-- `operator==`. -/
def same (l l' : Lead) : Bool :=
  l.constraint = l'.constraint && l.start = l'.start

end Lead

end ViEqui
