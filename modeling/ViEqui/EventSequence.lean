import ViEqui.Sequence

/-!
# Sequences of events

`ViewEqTraceBuilder::EventSequence`: a sequence whose events carry the value
they have in it, and the passage from a `Sequence` to one.
-/

namespace ViEqui

open AssocMap Shift

/-- `EventSequence::events`. -/
abbrev EventSequence := List Event

namespace EventSequence

/-- `to_iid_sequence`. -/
def toIidSequence (s : EventSequence) : Sequence := s.map (·.iid)

/-- `find_iid` and a dereference. -/
def findIid (s : EventSequence) (e : IID) : Option Event :=
  s.find? (fun ev => ev.iid = e)

/-- `has`. -/
def has (s : EventSequence) (e : IID) : Bool := (s.findIid e).isSome

/-- `find_iid(e) - begin()`. -/
def indexOf (s : EventSequence) (e : IID) : Nat :=
  s.findIdx (fun ev => ev.iid = e)

/-- `erase(find_iid(e))`. -/
def eraseIid (s : EventSequence) (e : IID) : EventSequence :=
  s.eraseP (fun ev => ev.iid = e)

/-- `operator==`: the comparison stops at the end of the shorter sequence. -/
def same : EventSequence → EventSequence → Bool
  | e :: s, e' :: s' => e.iid = e'.iid && same s s'
  | _, _ => true

/-- `read_value_map`. -/
def readValueMap (s : EventSequence) : Map IID Value :=
  s.foldl (fun m e => if e.isRead then insert m e.iid e.value else m) []

/-! ## View adjustment -/

/-- `view_adjust(e1, e2)`.  Unlike `Sequence::view_adjust` it does not ask
for spawns and joins. -/
def viewAdjust (s : EventSequence) (e1 e2 : IID) : Option EventSequence :=
  let n1 := s.indexOf e1
  let n2 := s.indexOf e2
  shiftBehind Event.rwPair (fun e => e.iid.pid = e1.pid) n1 n2 (n2 - n1) 0 s

/-- `conflicts_with`, as the identifiers of the pair it answers. -/
def conflictsWith : EventSequence → EventSequence → Option (IID × IID)
  | [], _ => none
  | a :: s, other =>
    let reversed (b : Event) : Bool :=
      other.has a.iid && other.has b.iid &&
        other.indexOf b.iid < other.indexOf a.iid
    match s.find? reversed with
    | some b => some (a.iid, b.iid)
    | none => conflictsWith s other

/-- The `while` loop of `VA_equal`, on the copy `t` of the other sequence.
The inner `none` stands for a conflict that cannot be adjusted for. -/
def resolveConflicts (s : EventSequence) :
    Nat → EventSequence → Option (Option EventSequence)
  | 0, _ => none
  | fuel + 1, t =>
    match conflictsWith s t with
    | none => some (some t)
    | some (e1, e2) =>
      match viewAdjust t e2 e1 with
      | some t' => resolveConflicts s fuel t'
      | none => some none

/-- `VA_equal`. -/
def vaEqual (fuel : Nat) (s t : EventSequence) : Option Bool :=
  (resolveConflicts s fuel t).map fun
    | some t' => s.toIidSequence = t'.toIidSequence
    | none => false

/-! ## Completion of an rmw -/

/-- The loop of `add_rmw_write` that recomputes the values behind the write.
`last` is the value of the event before. -/
def recompute : Value → Memory → EventSequence → EventSequence
  | _, _, [] => []
  | last, mem, e :: s =>
    if e.isWrite then
      let value := if e.isRmw then
          computeModifiedValue e.rmwOperation last e.rmwValue e.expectedValue
        else e.value
      { e with value } :: recompute value (insert mem e.object value) s
    else if e.isRead then
      let value := (find? mem e.object).getD e.value
      { e with value } :: recompute value mem s
    else e :: recompute e.value mem s

/-- `add_rmw_write`. -/
def addRmwWrite (c : Container) (s : EventSequence)
    (rmwRead rmwWrite : IID) : EventSequence :=
  recompute 0 []
    (Sequence.insertAfter (fun ev => ev.iid = rmwRead) (c.getEvent rmwWrite) s)

end EventSequence

namespace Sequence

/-- The loop of `to_event_sequence`, with the events already looked up.
`last` is the value of the last event of the new sequence, `written` the map
of the values written in it. -/
def replayEvents (mem : Memory) : Value → Memory → EventSequence → EventSequence
  | _, _, [] => []
  | last, written, e :: s =>
    if e.isWrite then
      let value := if e.isRmw then
          computeModifiedValue e.rmwOperation last e.rmwValue e.expectedValue
        else e.value
      { e with value } :: replayEvents mem value (insert written e.object value) s
    else if e.isRead then
      let value := (find? written e.object).getD (getD mem e.object 0)
      { e with value } :: replayEvents mem value written s
    else e :: replayEvents mem e.value written s

/-- `to_event_sequence(mem)`. -/
def toEventSequence (c : Container) (s : Sequence) (mem : Memory) :
    EventSequence :=
  replayEvents mem 0 [] (s.map c.getEvent)

/-- The event that `to_event_sequence(source, mem)` looks up.  `source` is
consulted only for threads that do not exist; an event beyond the end of an
existing thread stays default constructed. -/
def lookupEvent (c : Container) (source : EventSequence) (e : IID) : Event :=
  if e.pid < c.threads.length then
    if e.idx < c.threadSize e.pid then c.getEvent e else default
  else (source.findIid e).getD default

/-- `to_event_sequence(source, mem)`. -/
def toEventSequenceFrom (c : Container) (s : Sequence)
    (source : EventSequence) (mem : Memory) : EventSequence :=
  replayEvents mem 0 [] (s.map (lookupEvent c source))

end Sequence

end ViEqui
