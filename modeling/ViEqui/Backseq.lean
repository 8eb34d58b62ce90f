import ViEqui.EventSequence

/-!
# Backward starts

`Sequence::causal_prefix` and `Sequence::backseq`: the start of a lead that
brings a read and a write `e1 … e2` of one object into the other order.

With a non-empty `source` the events are looked up there, otherwise in the
thread table.
-/

namespace ViEqui

namespace Sequence

/-- One of the three prefixes that `causal_prefix` collects, with
`threads_of_prefix` and `objects_for_source`. -/
structure CausalPart where
  events : Sequence := []
  threads : List Nat := []
  objects : List Object := []
deriving DecidableEq, Repr

/-- The state of the loop of `causal_prefix`. -/
structure CausalState where
  /-- `JOIN`: threads that join in the thread of `e2` -/
  join : CausalPart := {}
  /-- `JOINe1`: the thread of `e1`, if it joins in the thread of `e2` -/
  joinE1 : CausalPart := {}
  /-- `CAUSAL`: the thread of `e2` -/
  causal : CausalPart := {}
  e1Delim : IID
deriving DecidableEq, Repr

def CausalPart.addThread (p : CausalPart) (t : Nat) : CausalPart :=
  { p with threads := p.threads ++ [t] }

/-- `if (!prefix.empty()) e1_delim = prefix.head()`. -/
def CausalPart.headD (p : CausalPart) (delim : IID) : IID :=
  p.events.headD delim

/-- `update_thread_causality`, with `assign_thread_causality` in its first
lines. -/
def updateThreadCausality (event : Event) (e1 e2 : IID) (st : CausalState) :
    CausalState :=
  let before := if event.type = .spawn then event.iid.pid else event.object.1
  let after := if event.type = .spawn then event.object.1 else event.iid.pid
  if event.type = .join ∧ after = e2.pid then
    if before = e1.pid then
      { st with
        e1Delim := st.causal.headD st.e1Delim
        joinE1 := st.joinE1.addThread e1.pid }
    else { st with join := st.join.addThread before }
  else if after ∈ st.join.threads then
    { st with
      e1Delim := if before = e1.pid then
          st.join.headD (st.causal.headD st.e1Delim) else st.e1Delim
      join := st.join.addThread before }
  else if after ∈ st.joinE1.threads then
    { st with joinE1 := st.joinE1.addThread before }
  else if after ∈ st.causal.threads then
    { st with
      e1Delim := if before = e1.pid then
          st.causal.headD st.e1Delim else st.e1Delim
      causal := st.causal.addThread before }
  else st

/-- `add_causal_event` on one part.  The flag is `added_to_prefix`. -/
def addCausalEvent (event : Event) (p : CausalPart) : CausalPart × Bool :=
  if event.iid.pid ∈ p.threads then
    ({ p with
        events := event.iid :: p.events
        objects :=
          if event.isRead then event.object :: p.objects
          else if event.isWrite then p.objects.filter (· ≠ event.object)
          else p.objects }, true)
  else (p, false)

/-- `prefix_rf_source` on one part, for a write that is not the write of a
failed compare-exchange. -/
def prefixRfSource (event : Event) (p : CausalPart) : CausalPart × Bool :=
  if event.object ∈ p.objects then
    ({ events := event.iid :: p.events
       threads := p.threads ++ [event.iid.pid]
       objects := p.objects.filter (· ≠ event.object) }, true)
  else (p, false)

/-- `get_event(e)` or `*source.find_iid(e)`. -/
def eventIn (c : Container) (source : EventSequence) (e : IID) : Event :=
  if source = [] then c.getEvent e else (source.findIid e).getD default

/-- The test of `prefix_rf_source`: the write of a compare-exchange that did
not modify the value. -/
def failedCmpxchg (c : Container) (source : EventSequence) (event : Event) :
    Bool :=
  let read := eventIn c source ⟨event.iid.pid, event.iid.idx - 1⟩
  event.isRmw && event.rmwOperation = .cmpxchg &&
    read.value ≠ read.expectedValue

/-- The body of the loop of `causal_prefix`. -/
def causalStep (c : Container) (source : EventSequence) (e1 e2 : IID)
    (st : CausalState) (e : IID) : CausalState :=
  let event := eventIn c source e
  if event.type = .spawn ∨ event.type = .join then
    updateThreadCausality event e1 e2 st
  else if !event.isGlobal then st
  else
    let (join, b0) := addCausalEvent event st.join
    let (joinE1, b1) := addCausalEvent event st.joinE1
    let (causal, b2) := addCausalEvent event st.causal
    if b0 || b1 || b2 then
      { join, joinE1, causal,
        e1Delim := if event.iid.pid = e1.pid then event.iid else st.e1Delim }
    else if event.isWrite && !failedCmpxchg c source event then
      let (join, b0) := prefixRfSource event st.join
      let (joinE1, b1) := prefixRfSource event st.joinE1
      let (causal, b2) := prefixRfSource event st.causal
      { join, joinE1, causal,
        e1Delim := if (b0 || b1 || b2) && e.pid = e1.pid then e
          else st.e1Delim }
    else st

/-- The part with `e1` at its front, if a read in it depends on the write
`e1`. -/
def addSourceE1 (event : Event) (e1 : IID) (p : CausalPart) :
    CausalPart × Bool :=
  if event.object ∈ p.objects then
    ({ p with events := e1 :: p.events }, true)
  else (p, false)

/-- `causal_prefix(e1, e2, begin, end, source)`, where `between` is the range
`[begin, end)`. -/
def causalPrefix (fuel : Nat) (c : Container) (source : EventSequence)
    (e1 e2 : IID) (between : Sequence) : Option (IID × Sequence) := do
  let st := between.reverse.foldl (causalStep c source e1 e2)
    { causal := { threads := [e2.pid] }, e1Delim := e2 }
  let event := eventIn c source e1
  let (join, b0) :=
    if event.isWrite then addSourceE1 event e1 st.join else (st.join, false)
  let (joinE1, b1) :=
    if event.isWrite then addSourceE1 event e1 st.joinE1 else (st.joinE1, false)
  let (causal, b2) :=
    if event.isWrite then addSourceE1 event e1 st.causal else (st.causal, false)
  let e1Delim := if b0 || b1 || b2 then e1 else st.e1Delim
  let first ← consistentMerge fuel c join.events joinE1.events
  let second ← consistentMerge fuel c first.result causal.events
  return (e1Delim, second.result)

/-- The state of the loop of `backseq` that looks for the place of the
write. -/
structure PlaceState where
  /-- `event`; with a non-empty `source` the loop overwrites it -/
  event : Event
  loc : Nat := 0
  delimLoc : Nat
  foundRacingWrite : Bool := false

/-- The body of that loop, at position `i`.  With a non-empty `source` the
looked up event is assigned to `event`, and `eit` stays default
constructed. -/
def placeStep (c : Container) (source : EventSequence) (e1Delim : IID)
    (st : PlaceState) (ie : Nat × IID) : PlaceState :=
  let (i, e) := ie
  let delimLoc := if e = e1Delim then i else st.delimLoc
  let eit := if source = [] then c.getEvent e else default
  let event := if source = [] then st.event else
    (source.findIid e).getD default
  if event.sameObject eit && eit.isWrite && eit.value ≠ event.value then
    { event, delimLoc, foundRacingWrite := true, loc := i + 1 }
  else if event.sameObject eit && eit.isRead && st.foundRacingWrite then
    { st with event, delimLoc, loc := i + 1 }
  else { st with event, delimLoc }

/-- The loop of `backseq` that looks for the last write before an rmw write,
with the same slip. -/
def racingStep (c : Container) (source : EventSequence)
    (st : Event × Option Value) (e : IID) : Event × Option Value :=
  let eit := if source = [] then c.getEvent e else default
  let event := if source = [] then st.1 else (source.findIid e).getD default
  if event.sameObject eit && eit.isWrite then (event, some eit.value)
  else (event, st.2)

/-- `push_at(begin + i, e)`. -/
def pushAt (s : Sequence) (i : Nat) (e : IID) : Sequence :=
  s.take i ++ e :: s.drop i

/-- The last lines of `backseq` for an rmw write `e1`: its read is put before
it, unless another write changed the value. -/
def pushRmwRead (c : Container) (source : EventSequence) (event : Event)
    (e1 : IID) (s : Sequence) : Sequence :=
  let loc := s.idxOf e1
  let (_, memVal) := (s.take loc).foldl (racingStep c source) (event, none)
  let rmwRead := c.getEvent ⟨e1.pid, e1.idx - 1⟩
  if memVal.any (· ≠ rmwRead.value) then []
  else pushAt s loc ⟨e1.pid, e1.idx - 1⟩

/-- The loop of `backseq` that looks for the place of the write `e1`, over the
causal prefix. -/
def findPlace (c : Container) (source : EventSequence) (event : Event)
    (e1Delim : IID) (causal : Sequence) : PlaceState :=
  ((List.range causal.length).zip causal).foldl (placeStep c source e1Delim)
    { event, delimLoc := causal.length + 1 }

/-- The causal prefix and `e2`, with the write `e1` at the place `loc` unless
it is in the prefix already. -/
def placeWrite (e1 e2 e1Delim : IID) (causal : Sequence) (loc : Nat) : Sequence :=
  if e1Delim = e1 then causal ++ [e2] else pushAt (causal ++ [e2]) loc e1

/-- `backseq(e1, e2, source)`.  The empty sequence stands for a pair that
cannot be reversed. -/
def backseq (fuel : Nat) (c : Container) (s : Sequence) (e1 e2 : IID)
    (source : EventSequence) : Option Sequence := do
  let n1 := s.idxOf e1 + 1
  let between := (s.drop n1).take (s.idxOf e2 - n1)
  let (e1Delim, causal) ← causalPrefix fuel c source e1 e2 between
  let event := eventIn c source e1
  if event.isWrite then
    let st := findPlace c source event e1Delim causal
    if st.delimLoc < st.loc then return []
    else
      let placed := placeWrite e1 e2 e1Delim causal st.loc
      if st.event.isRmw then
        return pushRmwRead c source st.event e1 placed
      else return placed
  else if e1Delim ≠ e2 then return []
  else return causal ++ [e2] ++ [e1]

end Sequence

end ViEqui
