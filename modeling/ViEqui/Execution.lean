import ViEqui.UnionCalls
import ViEqui.Schedule

/-!
# What the analysis leaves alone

The builder holds the current execution and the leads to explore later.
`Builder.execution` is the first part.  The functions that only add leads
keep it: the unions, the forward and the backward analysis, and the walk of
`reset` over the states.
-/

namespace ViEqui

open AssocMap

/-- The part of the builder that describes the current execution. -/
structure Execution where
  container : Container
  prefixIdx : Nat
  replayPoint : Option Nat
  currentThread : Nat
  currentEvent : Event
  currentState : Nat
  enabled : List IID
  mem : Memory
  lastWrite : Map Object IID
  prefixState : List (Option Nat)
  executionSequence : Sequence
  cps : Map CPid Nat
  /-- `sequence_prefix` of each state -/
  points : List Nat

namespace Builder

def execution (b : Builder) : Execution where
  container := b.toContainer
  prefixIdx := b.prefixIdx
  replayPoint := b.replayPoint
  currentThread := b.currentThread
  currentEvent := b.currentEvent
  currentState := b.currentState
  enabled := b.enabled
  mem := b.mem
  lastWrite := b.lastWrite
  prefixState := b.prefixState
  executionSequence := b.executionSequence
  cps := b.cps
  points := b.states.map State.sequencePrefix

/-- The analysis writes to states only below their `sequence_prefix`. -/
theorem execution_modifyState (b : Builder) (i : Nat) {f : State → State}
    (hf : ∀ s, (f s).sequencePrefix = s.sequencePrefix) :
    (b.modifyState i f).execution = b.execution := by
  have hpoints : (b.states.modify i f).map State.sequencePrefix =
      b.states.map State.sequencePrefix := by
    apply List.ext_getElem?
    intro j
    rw [List.getElem?_map, List.getElem?_map, List.getElem?_modify]
    split
    · cases b.states[j]? with
      | none => rfl
      | some s => exact congrArg some (hf s)
    · cases b.states[j]? <;> rfl
  unfold execution modifyState
  rw [hpoints]

/-- A fold of steps that keep the execution. -/
theorem execution_foldlM {α : Type} {f : Builder → α → Option Builder}
    (hf : ∀ b a b', f b a = some b' → b'.execution = b.execution) {l : List α}
    {b b' : Builder} (h : l.foldlM f b = some b') :
    b'.execution = b.execution := by
  induction l generalizing b with
  | nil =>
    cases h
    rfl
  | cons a l ih =>
    rw [List.foldlM_cons, Option.bind_eq_bind, Option.bind_eq_some_iff] at h
    obtain ⟨b1, hb1, h⟩ := h
    exact (ih h).trans (hf b a b1 hb1)

/-! ## Adding leads -/

theorem execution_union {env : Env} {b b' : Builder} {state : Nat}
    {ls : List Lead} (h : b.union env state ls = some b') :
    b'.execution = b.execution := by
  apply consistentUnion_rec (fun b1 => b1.execution = b.execution)
    (fun _ _ _ => True) ?_ ?_ h (fun _ _ _ _ => trivial) rfl
  · intro depth b0 b1 state ls ls' queue rest _ _ _ hb1
    rw [execution_modifyState b1 state (by intro; rfl), hb1]
  · intro b0 state ls ls' r _ hb0 _ _ _
    rw [execution_modifyState b0 state (by intro; rfl), hb0]

theorem execution_forwardAnalysis {env : Env} {b b' : Builder} {event : Event}
    {f : SOPFormula} (h : b.forwardAnalysis env event f = some b') :
    b'.execution = b.execution :=
  execution_union h

theorem execution_forbidValueForEiLeads (b : Builder) (state : Nat)
    (read : IID) (value : Value) :
    (b.forbidValueForEiLeads state read value).execution = b.execution := by
  unfold forbidValueForEiLeads
  simp only
  split
  · exact execution_modifyState b state (fun _ => rfl)
  · rfl

theorem execution_backwardReadLoop {env : Env} {event : Event}
    {values : List Value} {fui : SOPFormula} {all : List IID} {b b' : Builder}
    {acc acc' : Map Nat (List Lead)} {is : List IID}
    (h : backwardReadLoop env event values fui all b acc is = some (b', acc')) :
    b'.execution = b.execution := by
  fun_induction backwardReadLoop env event values fui all b acc is with
  | case1 b acc =>
    cases h
    rfl
  | case2 b acc i rest e hskip ih => exact ih h
  | case3 b acc i rest e hskip ih ih' =>
    rw [Option.bind_eq_bind, Option.bind_eq_some_iff] at h
    obtain ⟨start, _, h⟩ := h
    split at h
    · exact ih h
    · simp only [Option.bind_eq_bind, Option.bind_eq_some_iff] at h
      obtain ⟨lead, _, h⟩ := h
      exact ih' _ _ h

theorem execution_backwardWriteLoop {env : Env} {event : Event}
    {b b' : Builder} {acc acc' : Map Nat (List Lead)} {is : List IID}
    (h : backwardWriteLoop env event b acc is = some (b', acc')) :
    b'.execution = b.execution := by
  induction is generalizing b acc with
  | nil =>
    cases h
    rfl
  | cons i rest ih =>
    simp only [backwardWriteLoop] at h
    split at h
    · exact ih h
    · rw [Option.bind_eq_bind, Option.bind_eq_some_iff] at h
      obtain ⟨start, _, h⟩ := h
      split at h
      · exact ih h
      · simp only [Option.bind_eq_bind, Option.bind_eq_some_iff] at h
        obtain ⟨lead, _, h⟩ := h
        split at h
        · refine (ih h).trans ?_
          exact execution_forbidValueForEiLeads _ _ _ _
        · have hrest := ih h
          exact hrest

theorem execution_backwardAnalysis {env : Env} {b b' : Builder} {event : Event}
    {f : SOPFormula} (h : b.backwardAnalysis env event f = some b') :
    b'.execution = b.execution := by
  unfold backwardAnalysis at h
  split at h
  · simp only [Option.bind_eq_bind, Option.bind_eq_some_iff] at h
    obtain ⟨⟨b1, leads⟩, hloop, h⟩ := h
    cases h
    rw [execution_modifyState b1 _ (by intro; rfl)]
    exact execution_backwardReadLoop hloop
  · split at h
    · simp only [Option.bind_eq_bind, Option.bind_eq_some_iff] at h
      obtain ⟨⟨b1, leads⟩, hloop, h⟩ := h
      rw [execution_foldlM (fun b i b' hb => execution_union hb) h]
      unfold backwardAnalysisWrite at hloop
      have hwrite := execution_backwardWriteLoop hloop
      exact hwrite
    · cases h
      rfl

theorem execution_updateLeads {env : Env} {b b' : Builder} {event : Event}
    {f : SOPFormula} (h : b.updateLeads env event f = some b') :
    b'.execution = b.execution := by
  unfold updateLeads at h
  simp only [Option.bind_eq_bind] at h
  split at h
  · rw [Option.bind_eq_some_iff] at h
    obtain ⟨b1, hforward, h⟩ := h
    rw [execution_backwardAnalysis h, execution_forwardAnalysis hforward]
  · exact execution_backwardAnalysis h

theorem execution_analyseUnexploredInfluencers {env : Env} {b b' : Builder}
    {read : IID} (h : b.analyseUnexploredInfluencers env read = some b') :
    b'.execution = b.execution :=
  execution_foldlM (fun _ _ _ hb => execution_updateLeads hb) h

theorem execution_addEWLeads {env : Env} {b b' : Builder} {state : Nat}
    (h : b.addEWLeads env state = some b') : b'.execution = b.execution := by
  unfold addEWLeads at h
  rw [Option.bind_eq_bind, Option.bind_eq_some_iff] at h
  obtain ⟨b1, hfold, h⟩ := h
  cases h
  show b1.execution = b.execution
  refine execution_foldlM (fun b read b' hread => ?_) hfold
  refine execution_foldlM (fun b value b' hvalue => ?_) hread
  rw [Option.bind_eq_some_iff] at hvalue
  obtain ⟨b2, hunion, hvalue⟩ := hvalue
  cases hvalue
  rw [execution_forbidValueForEiLeads]
  exact execution_union hunion

/-! ## New leads for a new state -/

/-- The end of `compute_new_leads`: the alpha lead starts here. -/
theorem execution_alphaHead {b b' : Builder} {i : Nat} {head : Option Nat}
    {alphaHead : Nat}
    (h : some { b.modifyState i (fun s =>
      { s with leadHeadExecutionPrefix := head }) with alphaHead } = some b') :
    b'.execution = b.execution := by
  cases h
  exact execution_modifyState b i (by intro; rfl)

theorem execution_computeNewLeads {env : Env} {b b' : Builder}
    (h : b.computeNewLeads env = some b') : b'.execution = b.execution := by
  unfold computeNewLeads at h
  simp only [Option.bind_eq_bind, Option.pure_def, Option.bind_some] at h
  -- `update_leads` for the next event, and the lead that starts with it
  have hadd : ∀ (b1 : Builder) (next : IID) (b' : Builder),
      ((b1.updateLeads env (b1.event next) b1.forbidden).bind fun b2 =>
        if (b2.stateAt b2.currentState).hasUnexploredLeads then
          some { b2.modifyState b2.currentState (fun s =>
            { s with leadHeadExecutionPrefix := some b2.prefixIdx }) with
            alphaHead := b2.prefixIdx }
        else (b2.union env b2.currentState
          [Lead.ofStart b2.toContainer [next] b2.forbidden b2.mem]).bind
            fun b3 => some { b3.modifyState b3.currentState (fun s =>
              { s with leadHeadExecutionPrefix := some b3.prefixIdx }) with
              alphaHead := b3.prefixIdx }) = some b' →
      b'.execution = b1.execution := by
    intro b1 next b' h
    rw [Option.bind_eq_some_iff] at h
    obtain ⟨b2, hupdate, h⟩ := h
    rw [← execution_updateLeads hupdate]
    split at h
    · exact execution_alphaHead h
    · rw [Option.bind_eq_some_iff] at h
      obtain ⟨b3, hunion, h⟩ := h
      rw [← execution_union hunion]
      exact execution_alphaHead h
  split at h
  · split at h
    · rw [Option.bind_eq_some_iff] at h
      obtain ⟨b1, hanalyse, h⟩ := h
      rw [hadd _ _ _ h, execution_modifyState b1 _ (by intro; rfl)]
      exact execution_analyseUnexploredInfluencers hanalyse
    · exact hadd _ _ _ h
  · rw [Option.bind_eq_some_iff] at h
    obtain ⟨b1, hunion, h⟩ := h
    cases h
    show b1.execution = b.execution
    rw [execution_union hunion]
    exact execution_modifyState b _ (by intro; rfl)
/-! ## Read-modify-writes -/

/-- What `complete_rmw` does to the execution. -/
theorem execution_completeRmw {env : Env} {b b' : Builder} {a : SymAddrSize}
    {written : List UInt8} (h : b.completeRmw env a written = some b') :
    b'.execution = { (b.pushEvent b.currentThread (b.rmwWriteEvent a written)).execution with
      currentEvent := b.rmwWriteEvent a written
      lastWrite := insert b.lastWrite (b.rmwWriteEvent a written).object
        (b.rmwWriteEvent a written).iid
      mem := insert b.mem (b.rmwWriteEvent a written).object
        (b.rmwWriteEvent a written).value
      prefixIdx := b.prefixIdx + 1
      executionSequence := if b.isReplaying then b.executionSequence
        else b.executionSequence ++ [(b.rmwWriteEvent a written).iid]
      prefixState := if b.isReplaying then b.prefixState
        else b.prefixState ++ [some b.currentState] } := by
  unfold completeRmw at h
  simp only [Option.bind_eq_bind, Option.pure_def, Option.bind_some] at h
  generalize hevent : b.rmwWriteEvent a written = event at h ⊢
  generalize hb1 : ({ b.pushEvent b.currentThread event with
    currentEvent := event } : Builder).addWriteToLeads b.lastThreadEvent.iid event.iid = b1 at h
  have hexec : b1.execution = { (b.pushEvent b.currentThread event).execution with
      currentEvent := event } := by
    rw [← hb1]
    unfold addWriteToLeads
    rw [execution_modifyState _ _ (by intro; rfl), execution_modifyState]
    · rfl
    · intro s
      split <;> rfl
  have hreplaying : b1.isReplaying = b.isReplaying := by
    rw [← hb1]
    rfl
  rw [hreplaying] at h
  have hlast : b1.lastWrite = b.lastWrite := congrArg Execution.lastWrite hexec
  have hmem : b1.mem = b.mem := congrArg Execution.mem hexec
  have hidx : b1.prefixIdx = b.prefixIdx := congrArg Execution.prefixIdx hexec
  split at h
  · next hr =>
    cases h
    show { b1.execution with
      lastWrite := insert b1.lastWrite event.object event.iid
      mem := insert b1.mem event.object event.value
      prefixIdx := b1.prefixIdx + 1 } = _
    rw [hlast, hmem, hidx, hexec]
    simp only [hr, if_true]
    rfl
  · next hr =>
    rw [Option.bind_eq_some_iff] at h
    obtain ⟨b2, hupdate, h⟩ := h
    cases h
    have hexec2 : b2.execution = b1.execution := execution_updateLeads hupdate
    show { b2.execution with
      lastWrite := insert b2.execution.lastWrite event.object event.iid
      mem := insert b2.execution.mem event.object event.value
      prefixIdx := b2.execution.prefixIdx + 1
      executionSequence := b2.execution.executionSequence ++ [event.iid]
      prefixState := b2.execution.prefixState ++
        [some b2.execution.currentState] } = _
    rw [hexec2, hexec]
    simp only [if_neg hr]
    rfl
/-! ## The search for the replay state -/

theorem execution_finishUpLead {env : Env} {b b' : Builder} {state : Nat}
    (h : b.finishUpLead env state = some b') : b'.execution = b.execution := by
  unfold finishUpLead at h
  rw [Option.bind_eq_bind, Option.bind_eq_some_iff] at h
  obtain ⟨b1, hpending, h⟩ := h
  cases h
  show b1.execution = b.execution
  exact execution_addEWLeads hpending

theorem execution_finishUpState {env : Env} {b b' : Builder} {state : Nat}
    (h : b.finishUpState env state = some b') : b'.execution = b.execution :=
  execution_foldlM (fun _ _ _ hb => execution_union hb) h

theorem execution_findReplayStatePrefix {env : Env} {n : Nat} {b b' : Builder}
    {found : Option Nat}
    (h : b.findReplayStatePrefix env n = some (b', found)) :
    b'.execution = b.execution := by
  induction n generalizing b with
  | zero =>
    cases h
    rfl
  | succ n ih =>
    unfold findReplayStatePrefix at h
    rw [Option.bind_eq_bind, Option.bind_eq_some_iff] at h
    obtain ⟨b1, hlead, h⟩ := h
    split at h
    · cases h
      exact execution_finishUpLead hlead
    · rw [Option.bind_eq_some_iff] at h
      obtain ⟨b2, hstate, h⟩ := h
      rw [ih h, execution_finishUpState hstate, execution_finishUpLead hlead]

/-- `reset` either ends the exploration or restarts at a state, and in both
cases from the execution that ended. -/
theorem reset_cases {env : Env} {b b' : Builder} {more : Bool}
    (h : b.reset env = some (b', more)) :
    ∃ b1 : Builder, b1.execution = b.execution ∧
      ((more = false ∧ b' = { b1 with replayPoint := none }) ∨
        ∃ state, more = true ∧ b' = b1.restart state) := by
  unfold reset at h
  simp only [Option.bind_eq_bind, Option.bind_eq_some_iff] at h
  obtain ⟨⟨b1, found⟩, hsearch, h⟩ := h
  have hexec : b1.execution = b.execution := by
    refine (execution_findReplayStatePrefix hsearch).trans ?_
    split <;> rfl
  refine ⟨b1, hexec, ?_⟩
  cases found with
  | none =>
    cases h
    exact .inl ⟨rfl, rfl⟩
  | some state =>
    cases h
    exact .inr ⟨state, rfl, rfl⟩

end Builder

end ViEqui
