import ViEqui.Event

/-!
# The thread table and the causality of threads

The part of `ViewEqTraceBuilder` that a `Sequence` reaches through its
`container` pointer: the events of the threads of the current execution and
the summaries of spawns and joins.

An index out of range is undefined behaviour in the source.  The model reads
a default there.
-/

namespace ViEqui

open AssocMap

/-- `CPid`, without auxiliary processes: the path `<p0.p1.…>` after `p0`. -/
abbrev CPid := List Nat

/-- `ViewEqTraceBuilder::Thread`. -/
structure Thread where
  cpid : CPid := []
  available : Bool := true
  events : List Event := []
  awaitingLoadStore : Bool := false
deriving DecidableEq, Repr

instance : Inhabited Thread := ⟨{}⟩

/-- What a `Sequence` reads of its `container`. -/
structure Container where
  threads : List Thread := [{}]
  /-- thread → thread it spawned → index of the spawn event -/
  spawnSummary : Map Nat (Map Nat Nat) := []
  /-- thread → thread that joined in it → index of the join event -/
  joinSummary : Map Nat (Map Nat Nat) := []
deriving DecidableEq, Repr

instance : Inhabited Container := ⟨{}⟩

namespace Container

/-- `threads[pid].size()`. -/
def threadSize (c : Container) (pid : Nat) : Nat :=
  (c.threads.getD pid default).events.length

/-- `get_event`. -/
def getEvent (c : Container) (e : IID) : Event :=
  (c.threads.getD e.pid default).events.getD e.idx default

/-- `RWpair` of the events of two identifiers. -/
def rwPair (c : Container) (e1 e2 : IID) : Bool :=
  (c.getEvent e1).rwPair (c.getEvent e2)

theorem rwPair_comm (c : Container) (e1 e2 : IID) :
    c.rwPair e1 e2 = c.rwPair e2 e1 := Event.rwPair_comm _ _

/-- Two events that may not change places in a sequence: a read-write pair, or
events of one thread. -/
def dependent (c : Container) (e1 e2 : IID) : Bool :=
  c.rwPair e1 e2 || e1.pid = e2.pid

theorem dependent_comm (c : Container) (e1 e2 : IID) :
    c.dependent e1 e2 = c.dependent e2 e1 := by
  rw [dependent, dependent, rwPair_comm]
  simp only [eq_comm]

/-- `ordered_by_join`. -/
def orderedByJoin (c : Container) (e1 e2 : IID) : Bool :=
  match find? (getD c.joinSummary e2.pid []) e1.pid with
  | none => false
  | some join => join ≤ e2.idx

/-- `ordered_by_spawn`. -/
def orderedBySpawn (c : Container) (e1 e2 : IID) : Bool :=
  match find? (getD c.spawnSummary e1.pid []) e2.pid with
  | none => false
  | some spawn => e1.idx ≤ spawn

/-- The test of both summaries that the merge makes. -/
def ordered (c : Container) (e1 e2 : IID) : Bool :=
  c.orderedByJoin e1 e2 || c.orderedBySpawn e1 e2

/-- `update_join_summary`. -/
def updateJoinSummary (c : Container) (event : Event) : Container :=
  let tid := event.iid.pid
  let joined := event.object.1
  let mine := getD c.joinSummary tid []
  if contains mine joined then c
  else
    -- the threads that joined in the joined thread join here as well
    let indirect := getD c.joinSummary joined []
    let mine' := indirect.foldl
      (fun m t => if contains m t.1 then m else insert m t.1 event.iid.idx)
      (insert mine joined event.iid.idx)
    { c with joinSummary := insert c.joinSummary tid mine' }

/-- `update_spawn_summary`. -/
def updateSpawnSummary (c : Container) (event : Event) : Container :=
  let tid := event.iid.pid
  let spawned := event.object.1
  let direct := modify c.spawnSummary tid [] (insert · spawned event.iid.idx)
  -- every ancestor of the thread gets the new thread as a descendant
  { c with
    spawnSummary := direct.map fun it =>
      match find? it.2 tid with
      | some idx => (it.1, insert it.2 spawned idx)
      | none => it }

end Container

end ViEqui
