import ViEqui.Lead

/-!
# The state of the trace builder

`ViewEqTraceBuilder::State` and the fields of `ViewEqTraceBuilder`.

The indices that the source marks with `-1` are `Option Nat`.  A state, a
lead or an event that does not exist is undefined behaviour in the source;
the model reads a default there and drops what is written to it.
-/

namespace ViEqui

open AssocMap

/-- `ViewEqTraceBuilder::State`. -/
structure State where
  /-- index in the execution sequence corresponding to this state -/
  sequencePrefix : Nat := 0
  leads : List Lead := []
  forbidden : SOPFormula := {}
  /-- current lead being explored -/
  alpha : Option Nat := none
  /-- index in the execution sequence where the alpha lead starts -/
  leadHeadExecutionPrefix : Option Nat := none
  /-- the state is a part of alpha -/
  executingAlphaLead : Bool := false
  performedFwdAnalysis : Bool := false
  fwdRead : IID := ⟨0, 0⟩
  /-- state → leads of the explored influencers of `fwdRead` -/
  eiLeads : Map Nat (List Lead) := []
  mem : Memory := []
deriving DecidableEq, Repr

instance : Inhabited State := ⟨{}⟩

namespace State

/-- `has_unexplored_leads`. -/
def hasUnexploredLeads (s : State) : Bool := s.leads.any (fun l => !l.isDone)

/-- `leads[alpha]`. -/
def alphaLead (s : State) : Lead :=
  match s.alpha with
  | none => default
  | some a => s.leads.getD a default

/-- `alpha_sequence`: empty when no lead is chosen. -/
def alphaSequence (s : State) : EventSequence := s.alphaLead.mergedSequence

/-- `next_unexplored_lead`, as the index of the lead and the state with the
lead marked as explored. -/
def nextUnexploredLead (s : State) : Option (Nat × State) :=
  let i := s.leads.findIdx (fun l => !l.isDone)
  match s.leads[i]? with
  | none => none
  | some l =>
    some (i, { s with
      leads := s.leads.set i { l with isDone := true }
      alpha := some i
      performedFwdAnalysis :=
        s.performedFwdAnalysis && l.mergedSequence.has s.fwdRead })

end State

/-- `ViewEqTraceBuilder`. -/
structure Builder extends Container where
  /-- index into the execution sequence of the next event -/
  prefixIdx : Nat := 0
  replayPoint : Option Nat := none
  states : List State := []
  currentThread : Nat := 0
  currentEvent : Event := {}
  currentState : Nat := 0
  alphaHead : Nat := 0
  enabled : List IID := []
  coveredReadValues : Map IID (List Value) := []
  /-- state → read → value → pending leads -/
  ewLeads : Map Nat (Map IID (Map Value (List Lead))) := []
  mem : Memory := []
  lastWrite : Map Object IID := []
  /-- the state that scheduled each event of the execution sequence -/
  prefixState : List (Option Nat) := []
  executionSequence : Sequence := []
  toExplore : EventSequence := []
  forbidden : SOPFormula := {}
  currentRmwOperation : RMWOperation × Value := (.cmpxchg, 0)
  currentCmpxchgExpectedValue : Value := 0
  /-- `CPS`: the number of threads spawned by each thread name -/
  cps : Map CPid Nat := []
  checkOptimality : Bool := false
  exploredSequencesSummary : List (Map IID Value) := []
  redundant : Map Nat (List Nat) := []
  /-- number of parallel loops run so far; it selects their schedule -/
  parallelLoops : Nat := 0
deriving Repr

instance : Inhabited Builder := ⟨{}⟩

/-- What the source leaves open: the order in which an unordered container
is enumerated, and the order in which the iterations of an OpenMP loop insert
their results.  `fuel` bounds the `while` loops and the recursion of
`consistent_union`. -/
structure Env where
  fuel : Nat
  iidOrder : List IID → List IID
  stateOrder : List Nat → List Nat
  valueOrder : List Value → List Value
  /-- the order of insertion in the `n`-th parallel loop -/
  ompOrder : Nat → List IID → List IID
  iidOrder_perm : ∀ l, (iidOrder l).Perm l
  stateOrder_perm : ∀ l, (stateOrder l).Perm l
  valueOrder_perm : ∀ l, (valueOrder l).Perm l
  ompOrder_perm : ∀ n l, (ompOrder n l).Perm l

/-- The enumeration in order of insertion. -/
def Env.inOrder (fuel : Nat) : Env where
  fuel
  iidOrder := id
  stateOrder := id
  valueOrder := id
  ompOrder _ := id
  iidOrder_perm _ := .refl _
  stateOrder_perm _ := .refl _
  valueOrder_perm _ := .refl _
  ompOrder_perm _ _ := .refl _

namespace Builder

/-- `states[i]`. -/
def stateAt (b : Builder) (i : Nat) : State := b.states.getD i default

/-- Update `states[i]`. -/
def modifyState (b : Builder) (i : Nat) (f : State → State) : Builder :=
  { b with states := b.states.modify i f }

/-- `prefix_state[i]`. -/
def prefixStateAt (b : Builder) (i : Nat) : Option Nat := b.prefixState.getD i none

/-- `mem[obj]`, also `current_value`. -/
def memAt (b : Builder) (obj : Object) : Value := getD b.mem obj 0

/-- `get_event`. -/
def event (b : Builder) (e : IID) : Event := b.toContainer.getEvent e

/-- `is_replaying`. -/
def isReplaying (b : Builder) : Bool := b.replayPoint.any (b.prefixIdx < ·)

/-- `at_replay_point`. -/
def atReplayPoint (b : Builder) : Bool := b.replayPoint = some b.prefixIdx

end Builder

end ViEqui
