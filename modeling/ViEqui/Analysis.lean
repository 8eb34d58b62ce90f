import ViEqui.Union

/-!
# Forward and backward analysis

The functions of `ViewEqTraceBuilder` that turn a new event into leads:
`forward_analysis` at the current state, `backward_analysis` at earlier
states.
-/

namespace ViEqui

open AssocMap

namespace Builder

/-! ## Influencers and witnesses -/

/-- The loop of `unexploredInfluencers` over `Enabled`, with the values taken
and the values found to be forbidden. -/
def unexploredLoop (b : Builder) (er : Event) (f : SOPFormula) :
    List Value → List Value → List IID → List IID
  | _, _, [] => []
  | values, forbidden, i :: rest =>
    let e := b.event i
    if !e.isWrite || !er.sameObject e || e.value ∈ values ||
        e.value ∈ forbidden then
      unexploredLoop b er f values forbidden rest
    else if f.checkEvaluation (er.iid, e.value) = .true then
      unexploredLoop b er f values (e.value :: forbidden) rest
    else i :: unexploredLoop b er f (e.value :: values) forbidden rest

/-- `unexploredInfluencers`, in the order of enumeration. -/
def unexploredInfluencers (env : Env) (b : Builder) (er : Event)
    (f : SOPFormula) : List IID :=
  env.iidOrder (unexploredLoop b er f [] [] b.enabled)

/-- The loop of `exploredInfluencers`, over the reversed execution. -/
def exploredLoop (b : Builder) (er : Event) (f : SOPFormula) :
    List Value → List IID → List IID
  | _, [] => []
  | forbidden, i :: rest =>
    let e := b.event i
    if !er.rwPair e || e.value ∈ forbidden then
      exploredLoop b er f forbidden rest
    else if f.checkEvaluation (er.iid, e.value) = .true then
      exploredLoop b er f (e.value :: forbidden) rest
    else i :: exploredLoop b er f forbidden rest

/-- `exploredInfluencers`, in the order of enumeration. -/
def exploredInfluencers (env : Env) (b : Builder) (er : Event)
    (f : SOPFormula) : List IID :=
  env.iidOrder (exploredLoop b er f [] b.executionSequence.reverse).dedup

/-- The body of the parallel loop of `exploredWitnesses`: the read at a
position of the execution, with the state of that position, is a witness. -/
def isWitness (b : Builder) (ew : Event) (at_ : IID × Option Nat) : Bool :=
  let e := b.event at_.1
  let forbiddenAtRead : SOPFormula :=
    match at_.2 with
    | some i => (b.stateAt i).alphaLead.forbidden
    | none => {}
  e.isRead && e.sameObject ew && e.iid.pid ≠ ew.iid.pid &&
    forbiddenAtRead.checkEvaluation (at_.1, ew.value) ≠ .true

/-- `exploredWitnesses`, in the order of enumeration. -/
def exploredWitnesses (env : Env) (b : Builder) (ew : Event) : List IID :=
  let found := ((b.executionSequence.zip b.prefixState).filter
    (b.isWitness ew)).map (·.1)
  env.iidOrder (env.ompOrder b.parallelLoops found).dedup

/-! ## Forward analysis -/

/-- `f || (read, value of i)` for the events of a list, one after the
other. -/
def forbidValues (b : Builder) (read : IID) (f : SOPFormula)
    (is : List IID) : SOPFormula :=
  is.foldl (fun f i => f.disjRV (read, (b.event i).value)) f

/-- The leads that `forward_analysis` passes on. -/
def forwardLeads (env : Env) (b : Builder) (event : Event)
    (forbidden : SOPFormula) : List Lead :=
  let current := b.memAt event.object
  let ui := b.unexploredInfluencers env event forbidden
  let other := ui.filter (fun i => (b.event i).value ≠ current)
  let stay :=
    if forbidden.checkEvaluation (event.iid, current) = .true then []
    else [Lead.ofStart b.toContainer [event.iid]
      (b.forbidValues event.iid forbidden other) b.mem]
  let change := other.map fun i =>
    Lead.ofStart b.toContainer [i, event.iid]
      (b.forbidValues event.iid (forbidden.disjRV (event.iid, current))
        (ui.filter (· ≠ i))) b.mem
  stay ++ change

/-- `forward_analysis`. -/
def forwardAnalysis (env : Env) (b : Builder) (event : Event)
    (forbidden : SOPFormula) : Option Builder :=
  b.union env b.currentState (b.forwardLeads env event forbidden)

/-! ## Helpers of the backward analysis -/

/-- `union_state_start`: the state to which the lead goes, and the start from
there.  A state inside an alpha cannot be changed, so the lead goes to the
head of that alpha. -/
def unionStateStart (b : Builder) (idx : Nat) (event : IID)
    (start : Sequence) : Nat × Sequence :=
  let state := (b.prefixStateAt idx).getD 0
  let s := b.stateAt state
  if s.executingAlphaLead then
    let head := s.leadHeadExecutionPrefix.getD 0
    let behind := ((b.executionSequence.zip b.prefixState).drop (head + 1)
      ).takeWhile (fun p => p.1 ≠ event)
    let alphaPrefix := b.executionSequence.getD head default ::
      (behind.filter (fun p => p.2.isSome)).map (·.1)
    ((b.prefixStateAt head).getD 0, alphaPrefix ++ start)
  else (state, start)

/-- `get_constraint`. -/
def getConstraint (b : Builder) (state : Nat) (event : Event) :
    EventSequence :=
  let s := b.stateAt state
  let constraint := s.alphaSequence
  if !s.performedFwdAnalysis || !event.isRmw then constraint
  else if !((constraint.findIid s.fwdRead).getD default).isRmw then constraint
  else []

/-- `indepenent_event_in_leads`: all leads of the state that contain the
event give it one value. -/
def independentEventInLeads (b : Builder) (state : Nat) (event : IID) : Bool :=
  let values := (b.stateAt state).leads.filterMap
    (fun l => (l.mergedSequence.findIid event).map (·.value))
  match values with
  | [] => true
  | v :: rest => rest.all (· = v)

/-- Skip the write at the head of the reversed start. -/
def skipWrite (write : IID) : Sequence → Sequence
  | [] => []
  | e :: s => if e = write then s else e :: s

/-- The loop of `is_independent_EW_lead`, over the reversed execution and the
reversed start without its read. -/
def independentLoop (b : Builder) (write : IID) :
    List (IID × Option Nat) → Sequence → Bool
  | _, [] => true
  | [], _ => true
  | (e, ps) :: exec, x :: s =>
    if e = write ∨ e ≠ x then independentLoop b write exec (x :: s)
    else
      let state := ps.getD 0
      let st := b.stateAt state
      let state := if st.executingAlphaLead then
          (b.prefixStateAt (st.leadHeadExecutionPrefix.getD 0)).getD 0
        else state
      if 1 < (b.stateAt state).leads.length &&
          !b.independentEventInLeads state e then false
      else independentLoop b write exec (skipWrite write s)

/-- `is_independent_EW_lead`. -/
def isIndependentEWLead (b : Builder) (start : Sequence) (write : IID) :
    Bool :=
  independentLoop b write (b.executionSequence.zip b.prefixState).reverse
    (skipWrite write start.reverse.tail)

/-- `forbid_value_for_ei_leads`. -/
def forbidValueForEiLeads (b : Builder) (state : Nat) (read : IID)
    (value : Value) : Builder :=
  let s := b.stateAt state
  if s.performedFwdAnalysis && s.fwdRead = read then
    b.modifyState state fun s =>
      { s with
        eiLeads := s.eiLeads.map fun e =>
          (e.1, e.2.map fun l => l.withForbidden (l.forbidden.disjRV (read, value))) }
  else b

/-! ## Backward analysis -/

/-- `covered_read_values[read]`. -/
def covered (b : Builder) (read : IID) : List Value :=
  getD b.coveredReadValues read []

/-- `covered_read_values[read].push_back(value)`. -/
def cover (b : Builder) (read : IID) (value : Value) : Builder :=
  { b with coveredReadValues := modify b.coveredReadValues read [] (· ++ [value]) }

/-- The loop of `backward_analysis_read` over the explored influencers `ei`,
of which `all` is the whole set.  `fui` forbids the current value and the
values of the unexplored influencers. -/
def backwardReadLoop (env : Env) (event : Event) (uiValues : List Value)
    (fui : SOPFormula) (all : List IID) :
    Builder → Map Nat (List Lead) → List IID →
      Option (Builder × Map Nat (List Lead))
  | b, acc, [] => some (b, acc)
  | b, acc, i :: rest => do
    let e := b.event i
    if e.value = b.memAt event.object ∨ e.value ∈ uiValues ∨
        e.value ∈ b.covered event.iid then
      backwardReadLoop env event uiValues fui all b acc rest
    else
      let start ← b.executionSequence.backseq env.fuel b.toContainer i event.iid []
      if start = [] then backwardReadLoop env event uiValues fui all b acc rest
      else
        let idx := b.executionSequence.idxOf i
        let (idx, atUnion) : Nat × IID :=
          if e.isRmw then (idx - 1, ⟨i.pid, i.idx - 1⟩) else (idx, i)
        let (state, start) := b.unionStateStart idx atUnion start
        let constraint := b.getConstraint state event
        let fei := b.forbidValues event.iid {} (all.filter (· ≠ i))
        let inF := ((b.stateAt state).alphaLead.forbidden.disj fui).disj fei
        let lead ← Lead.ofConstraint env.fuel b.toContainer constraint start inF
          (b.stateAt state).mem
        backwardReadLoop env event uiValues fui all (b.cover event.iid e.value)
          (modify acc state [] (· ++ [lead])) rest

/-- `backward_analysis_read`. -/
def backwardAnalysisRead (env : Env) (b : Builder) (event : Event)
    (forbidden : SOPFormula) : Option (Builder × Map Nat (List Lead)) :=
  let ui := b.unexploredInfluencers env event forbidden
  let ei := b.exploredInfluencers env event forbidden
  let fui := b.forbidValues event.iid
    (.ofTerm (event.iid, b.memAt event.object)) ui
  backwardReadLoop env event (ui.map fun i => (b.event i).value) fui ei b [] ei

/-- `EW_leads[state][read].erase(value)`. -/
def dropEWLeads (b : Builder) (state : Nat) (read : IID) (value : Value) :
    Builder :=
  { b with ewLeads := modify b.ewLeads state [] fun m =>
      modify m read [] (erase · value) }

/-- `EW_leads[state][read][value].push_back(lead)`. -/
def pushEWLead (b : Builder) (state : Nat) (read : IID) (value : Value)
    (lead : Lead) : Builder :=
  { b with ewLeads := modify b.ewLeads state [] fun m =>
      modify m read [] fun m => modify m value [] (· ++ [lead]) }

/-- The loop of `backward_analysis_write` over the explored witnesses. -/
def backwardWriteLoop (env : Env) (event : Event) :
    Builder → Map Nat (List Lead) → List IID →
      Option (Builder × Map Nat (List Lead))
  | b, acc, [] => some (b, acc)
  | b, acc, i :: rest => do
    let value := (b.event i).value
    if value = event.value ∨ event.value ∈ b.covered i then
      backwardWriteLoop env event b acc rest
    else
      let start ← b.executionSequence.backseq env.fuel b.toContainer i event.iid []
      if start = [] then backwardWriteLoop env event b acc rest
      else
        let (state, start) :=
          b.unionStateStart (b.executionSequence.idxOf i) i start
        let constraint := b.getConstraint state event
        let inF := (b.stateAt state).alphaLead.forbidden.disjRV (i, value)
        let lead ← Lead.ofConstraint env.fuel b.toContainer constraint start inF
          (b.stateAt state).mem
        if b.isIndependentEWLead start event.iid then
          let b := (b.dropEWLeads state i event.value).forbidValueForEiLeads
            state i event.value
          backwardWriteLoop env event (b.cover i event.value)
            (modify acc state [] (· ++ [lead])) rest
        else
          backwardWriteLoop env event (b.pushEWLead state i event.value lead)
            acc rest

/-- `backward_analysis_write`. -/
def backwardAnalysisWrite (env : Env) (b : Builder) (event : Event) :
    Option (Builder × Map Nat (List Lead)) :=
  let ew := b.exploredWitnesses env event
  backwardWriteLoop env event { b with parallelLoops := b.parallelLoops + 1 } [] ew

/-- `backward_analysis`. -/
def backwardAnalysis (env : Env) (b : Builder) (event : Event)
    (forbidden : SOPFormula) : Option Builder := do
  if event.isRead then
    let (b, leads) ← backwardAnalysisRead env b event forbidden
    return b.modifyState b.currentState (fun s => { s with eiLeads := leads })
  else if event.isWrite then
    let (b, leads) ← backwardAnalysisWrite env b event
    (env.stateOrder (leads.map (·.1))).foldlM
      (fun b i => b.union env i (getD leads i [])) b
  else return b

/-- `update_leads(event, forbidden)`. -/
def updateLeads (env : Env) (b : Builder) (event : Event)
    (forbidden : SOPFormula) : Option Builder := do
  let b ← if event.isRead then b.forwardAnalysis env event forbidden else some b
  b.backwardAnalysis env event forbidden

/-- `analyse_unexplored_influenecers`. -/
def analyseUnexploredInfluencers (env : Env) (b : Builder) (read : IID) :
    Option Builder :=
  (b.unexploredInfluencers env (b.event read) b.forbidden).foldlM
    (fun b i => b.updateLeads env (b.event i) b.forbidden) b

/-- `add_EW_leads`. -/
def addEWLeads (env : Env) (b : Builder) (state : Nat) : Option Builder := do
  let pending := getD b.ewLeads state []
  let b ← (env.iidOrder (pending.map (·.1))).foldlM
    (fun b read =>
      let values := getD pending read []
      (env.valueOrder (values.map (·.1))).foldlM
        (fun b value => do
          let b ← b.union env state (getD values value [])
          return b.forbidValueForEiLeads state read value) b) b
  return { b with ewLeads := erase b.ewLeads state }

end Builder

end ViEqui
