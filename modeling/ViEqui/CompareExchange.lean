import ViEqui.EventTable
import ViEqui.WitnessLoop

/-!
# Failed compare-exchanges

`compare_exchange` completes a peeked compare-exchange as if it stored the
exchange value.  When the comparison failed it then restores the value in the
thread table, `mem` and `last_write`, but not what the backward analysis did
with the exchange value.

* `Reaches.fresh`: the event executed last, if it is a read, has the value of
  its object in `mem`.  That is why the restored memory is the one before.
* `leavesLeads_updateLeads_iff`: the analysis leaves the leads alone exactly
  when no witness calls for one.
* `storesNothing_iff`: a failed exchange leaves no trace exactly while
  replaying and when no witness calls for a lead.
-/

namespace ViEqui

open AssocMap

/-- An element of a list with one element changed. -/
theorem mem_modify_cases {α : Type} {l : List α} {i : Nat} {f : α → α} {x : α}
    (h : x ∈ l.modify i f) : x ∈ l ∨ ∃ y ∈ l, x = f y := by
  obtain ⟨j, hj⟩ := List.getElem?_of_mem h
  rw [List.getElem?_modify] at hj
  split at hj
  · obtain ⟨y, hy, rfl⟩ := Option.map_eq_some_iff.mp hj
    exact .inr ⟨y, List.mem_of_getElem? hy, rfl⟩
  · obtain ⟨y, hy, rfl⟩ := Option.map_eq_some_iff.mp hj
    exact .inl (List.mem_of_getElem? hy)

/-! ## The value of the event executed last -/

/-- Every event of the thread table has the property. -/
def Container.EveryEvent (c : Container) (P : Event → Prop) : Prop :=
  ∀ th ∈ c.threads, ∀ e ∈ th.events, P e

/-- An event with the symbolic event of a load is the read of that load. -/
def Event.LoadMade (e : Event) : Prop :=
  ∀ a, e.symEvent = some (.load a) → e.type = .read ∧ e.object = Event.objectOf a

/-- An event without a symbolic event, as `exists_non_memory_access` adds. -/
def Event.Blank (e : Event) : Prop := e.symEvent = none

theorem Event.Blank.loadMade {e : Event} (h : e.Blank) : e.LoadMade := by
  intro a ha
  rw [h] at ha
  cases ha

theorem Event.loadMade_makeRead (a : SymAddrSize) : (Event.makeRead a).LoadMade := by
  intro a' ha
  cases ha
  exact ⟨rfl, rfl⟩

theorem Event.loadMade_makeWrite (a : SymAddrSize) (written : List UInt8) :
    (Event.makeWrite a written).LoadMade := by
  intro a' ha
  cases ha

theorem Event.isRead_makeWrite (a : SymAddrSize) (written : List UInt8) :
    (Event.makeWrite a written).isRead = false := by
  simp [Event.makeWrite, Event.isRead]

namespace Container.EveryEvent

variable {c c' : Container} {P : Event → Prop}

theorem congr (h : c.EveryEvent P) (hthreads : c'.threads = c.threads) :
    c'.EveryEvent P := by
  unfold EveryEvent
  rw [hthreads]
  exact h

/-- The events of a thread that is read with a default have the property. -/
theorem of_getD (h : c.EveryEvent P) (t : Nat) :
    ∀ e ∈ (c.threads.getD t default).events, P e := by
  rw [List.getD_eq_getElem?_getD]
  cases ht : c.threads[t]? with
  | none =>
    intro e he
    cases he
  | some th => exact h th (List.mem_of_getElem? ht)

end Container.EveryEvent

namespace Builder

variable {P : Event → Prop} {b b' : Builder}

theorem everyEvent_modifyThread {t : Nat} {f : Thread → Thread}
    (h : b.EveryEvent P)
    (hf : ∀ th, (∀ e ∈ th.events, P e) → ∀ e ∈ (f th).events, P e) :
    (b.modifyThread t f).EveryEvent P := by
  intro th hth
  rcases mem_modify_cases hth with hth | ⟨th', hth', rfl⟩
  · exact h th hth
  · exact hf th' (h th' hth')

theorem everyEvent_pushEvent {t : Nat} {e : Event} (h : b.EveryEvent P) (he : P e) :
    (b.pushEvent t e).EveryEvent P := by
  refine everyEvent_modifyThread h fun th hth e' he' => ?_
  rcases List.mem_append.mp he' with he' | he'
  · exact hth e' he'
  · rw [List.mem_singleton.mp he']
    exact he

theorem everyEvent_popEvent (t : Nat) (h : b.EveryEvent P) :
    (b.popEvent t).EveryEvent P :=
  everyEvent_modifyThread h fun _ hth e he => hth e (List.dropLast_subset _ he)

theorem everyEvent_modifyEvent {i : IID} {f : Event → Event} (h : b.EveryEvent P)
    (hf : ∀ e, P e → P (f e)) : (b.modifyEvent i f).EveryEvent P := by
  refine everyEvent_modifyThread h fun th hth e he => ?_
  rcases mem_modify_cases he with he | ⟨e', he', rfl⟩
  · exact hth e he
  · exact hf e' (hth e' he')

theorem everyEvent_modifyThread_of_events {t : Nat} {f : Thread → Thread}
    (h : b.EveryEvent P) (hf : ∀ th, (f th).events = th.events) :
    (b.modifyThread t f).EveryEvent P := by
  refine everyEvent_modifyThread h fun th hth => ?_
  rw [hf]
  exact hth

theorem everyEvent_replaceLastEvent {e : Event} (h : b.EveryEvent P)
    (he : ∀ iid, P { e with iid }) : (b.replaceLastEvent e).EveryEvent P :=
  everyEvent_pushEvent (everyEvent_popEvent b.currentThread h) (he _)

theorem everyEvent_enableEvent {e : Event} (h : b.EveryEvent P)
    (he : ∀ iid, P { e with iid }) : (b.enableEvent e).EveryEvent P := by
  refine everyEvent_modifyThread h fun th hth e' he' => ?_
  rcases List.mem_append.mp he' with he' | he'
  · exact hth e' he'
  · rw [List.mem_singleton.mp he']
    exact he _

theorem everyEvent_performAccess {e : Event} (h : b.EveryEvent P)
    (hP : ∀ (e : Event) value, P e → P { e with value }) :
    (b.performAccess e).EveryEvent P := by
  unfold performAccess
  split
  · exact h
  · split
    · exact everyEvent_modifyEvent h fun ev hev => hP ev _ hev
    · exact h

/-- The current event, if it is a read, has the value of its object. -/
def ReadsMemory (b : Builder) : Prop :=
  b.currentEvent.isRead → b.currentEvent.value = b.memAt b.currentEvent.object

/-- The loads of the thread table are reads, and the current event reads the
memory, unless the table was emptied and only blank events came after. -/
structure Fresh (b : Builder) : Prop where
  made : b.EveryEvent Event.LoadMade
  reads : b.ReadsMemory ∨ b.EveryEvent Event.Blank

theorem readsMemory_of_not_isRead (h : b.currentEvent.isRead = false) :
    b.ReadsMemory := by
  intro hread
  rw [h] at hread
  cases hread

theorem ReadsMemory.congr (h : b.ReadsMemory) (hevent : b'.currentEvent = b.currentEvent)
    (hmem : b'.mem = b.mem) : b'.ReadsMemory := by
  unfold ReadsMemory memAt
  rw [hevent, hmem]
  exact h

/-- A call that neither executes an event nor changes the memory, and that
adds only blank events. -/
theorem Fresh.keep (h : b.Fresh) (hevent : b'.currentEvent = b.currentEvent)
    (hmem : b'.mem = b.mem)
    (htable : ∀ P, (∀ e, Event.Blank e → P e) → b.EveryEvent P → b'.EveryEvent P) :
    b'.Fresh where
  made := htable _ (fun _ he => he.loadMade) h.made
  reads := h.reads.imp (fun hr => hr.congr hevent hmem)
    (htable _ fun _ he => he)

theorem Fresh.of_execution (h : b.Fresh) (hexec : b'.execution = b.execution) :
    b'.Fresh :=
  h.keep (congrArg Execution.currentEvent hexec) (congrArg Execution.mem hexec)
    fun _ _ hP => hP.congr (congrArg (fun x : Execution => x.container.threads) hexec)

/-! ### The calls -/

theorem readsMemory_performAccess (b : Builder) (e : Event) :
    (b.performAccess e).ReadsMemory := by
  unfold performAccess
  split
  · next hwrite =>
    exact readsMemory_of_not_isRead (Event.isRead_eq_false_of_isWrite hwrite)
  · split
    · exact fun _ => rfl
    · next hread =>
      exact readsMemory_of_not_isRead (Bool.eq_false_iff.mpr hread)

theorem fresh_performAccess (h : b.Fresh) (e : Event) : (b.performAccess e).Fresh where
  made := everyEvent_performAccess h.made fun _ _ hmade => hmade
  reads := .inl (readsMemory_performAccess b e)

theorem fresh_modifyThread {t : Nat} {f : Thread → Thread} (h : b.Fresh)
    (hf : ∀ th, (f th).events = th.events) : (b.modifyThread t f).Fresh :=
  h.keep rfl rfl fun _ _ hP => everyEvent_modifyThread_of_events hP hf

theorem fresh_executeNextLead (h : b.Fresh) : b.executeNextLead.Fresh := by
  have hrecord : ∀ (b1 : Builder) executionSequence prefixState prefixIdx, b1.Fresh →
      ({ b1 with executionSequence, prefixState, prefixIdx } : Builder).Fresh :=
    fun _ _ _ _ h1 => h1.keep rfl rfl fun _ _ hP => hP
  have hchoose : ∀ states enabled toExplore forbidden currentThread,
      ({ b with states, enabled, toExplore, forbidden, currentThread } : Builder).Fresh :=
    fun _ _ _ _ _ => h.keep rfl rfl fun _ _ hP => hP
  unfold executeNextLead
  refine fresh_modifyThread ?_ fun _ => rfl
  refine hrecord _ _ _ _ (fresh_performAccess ?_ _)
  exact hchoose _ _ _ _ _

theorem fresh_replaySchedule (h : b.Fresh) : b.replaySchedule.Fresh := by
  unfold replaySchedule
  cases b.prefixStateAt b.prefixIdx with
  | none =>
    exact h.keep rfl rfl fun _ hblank hP => everyEvent_pushEvent hP (hblank _ rfl)
  | some state =>
    have hhead : ∀ b1 : Builder, b1.Fresh → (if
        (b1.stateAt state).leadHeadExecutionPrefix = some b1.prefixIdx then
          { b1 with alphaHead := b1.prefixIdx } else b1).Fresh := by
      intro b1 h1
      split
      · exact h1.keep rfl rfl fun _ _ hP => hP
      · exact h1
    have hstart : ∀ enabled currentState currentThread,
        ({ b with enabled, currentState, currentThread } : Builder).Fresh :=
      fun _ _ _ => h.keep rfl rfl fun _ _ hP => hP
    have hidx : ∀ (b1 : Builder) prefixIdx, b1.Fresh →
        ({ b1 with prefixIdx } : Builder).Fresh :=
      fun _ _ h1 => h1.keep rfl rfl fun _ _ hP => hP
    refine hidx _ _ (hhead _ (fresh_performAccess ?_ _))
    exact fresh_modifyThread (hstart _ _ _) fun _ => rfl

theorem fresh_schedule {env : Env} {proc : Option Nat} (h : b.Fresh)
    (hs : b.schedule env = some (b', proc)) : b'.Fresh := by
  unfold schedule at hs
  split at hs
  · cases hs
    exact fresh_replaySchedule h
  · split at hs
    · cases hs
      exact fresh_executeNextLead (h.keep rfl rfl fun _ _ hP => hP)
    · split at hs
      · cases hs
        exact h.keep rfl rfl fun _ hblank hP => everyEvent_pushEvent hP (hblank _ rfl)
      · split at hs
        · cases hs
          exact h
        · simp only [Option.bind_eq_bind, Option.bind_eq_some_iff] at hs
          obtain ⟨b1, hnew, hs⟩ := hs
          have hmake : b.makeNewState.Fresh := h.keep rfl rfl fun _ _ hP => hP
          have h1 : b1.Fresh := hmake.of_execution (execution_computeNewLeads hnew)
          split at hs
          · cases hs
            exact fresh_executeNextLead h1
          · cases hs
            exact h1

theorem fresh_replaceLastEvent {e : Event} (h : b.Fresh) (hmade : e.LoadMade)
    (he : e.isRead → e.value = b.memAt e.object) : (b.replaceLastEvent e).Fresh where
  made := everyEvent_replaceLastEvent h.made fun _ => hmade
  reads := .inl he

theorem fresh_enableEvent {e : Event} (h : b.Fresh) (hmade : e.LoadMade)
    (he : e.isRead → e.value = b.memAt e.object) : (b.enableEvent e).Fresh where
  made := everyEvent_enableEvent h.made fun _ => hmade
  reads := .inl he

theorem fresh_spawn (h : b.Fresh) : b.spawn.Fresh where
  made := by
    have hlast := everyEvent_replaceLastEvent (e := Event.makeSpawn b.threads.length)
      h.made fun _ => by intro a ha; cases ha
    intro th hth
    rcases List.mem_append.mp hth with hth | hth
    · exact hlast th hth
    · rw [List.mem_singleton.mp hth]
      intro e he
      cases he
  reads := .inl (readsMemory_of_not_isRead rfl)

theorem fresh_join (tgt : Nat) (h : b.Fresh) : (b.join tgt).Fresh := by
  have hlast : (b.replaceLastEvent (Event.makeJoin tgt)).Fresh :=
    fresh_replaceLastEvent h (by intro a ha; cases ha) (by intro hread; cases hread)
  refine hlast.keep rfl rfl fun _ _ hP => hP.congr ?_
  show (Container.updateJoinSummary _ _).threads = _
  unfold Container.updateJoinSummary
  simp only
  split <;> rfl

theorem fresh_load (a : SymAddrSize) (h : b.Fresh) : (b.load a).Fresh := by
  unfold load
  simp only
  split
  · exact fresh_enableEvent h (Event.loadMade_makeRead a) fun _ => rfl
  · exact fresh_replaceLastEvent h (Event.loadMade_makeRead a) fun _ => rfl

theorem fresh_atomicStore (a : SymAddrSize) (written : List UInt8) (h : b.Fresh) :
    (b.atomicStore a written).Fresh := by
  have hread : (Event.makeWrite a written).isRead →
      (Event.makeWrite a written).value =
        b.memAt (Event.makeWrite a written).object := by
    rw [Event.isRead_makeWrite]
    exact nofun
  unfold atomicStore
  simp only
  split
  · exact fresh_enableEvent h (Event.loadMade_makeWrite a written) hread
  · exact fresh_replaceLastEvent h (Event.loadMade_makeWrite a written) hread

theorem fresh_enableRmw (a : SymAddrSize) (h : b.Fresh) : (b.enableRmw a).Fresh where
  made := everyEvent_modifyEvent (fresh_load a h).made fun _ he => he
  reads := by
    -- the peeked read has just been given the value of the memory
    have hload : (b.load a).ReadsMemory := by
      unfold load
      simp only
      split
      · exact fun _ => rfl
      · exact fun _ => rfl
    exact .inl hload

theorem fresh_completeRmw {env : Env} {a : SymAddrSize} {written : List UInt8}
    (h : b.Fresh) (hc : b.completeRmw env a written = some b') : b'.Fresh where
  made := by
    have hpush : (b.pushEvent b.currentThread (b.rmwWriteEvent a written)).EveryEvent
        Event.LoadMade :=
      everyEvent_pushEvent h.made (Event.loadMade_makeWrite a written)
    exact hpush.congr (congrArg (fun x : Execution => x.container.threads)
      (execution_completeRmw hc))
  reads := by
    have hevent : b'.currentEvent = b.rmwWriteEvent a written :=
      congrArg Execution.currentEvent (execution_completeRmw hc)
    refine .inl (readsMemory_of_not_isRead ?_)
    rw [hevent]
    exact Event.isRead_makeWrite a written

theorem fresh_localRmw (a : SymAddrSize) (written : List UInt8) (success : Bool)
    (h : b.Fresh) : (b.localRmw a written success).Fresh := by
  have hread : (b.replaceLastEvent { Event.makeRead a with
      value := b.memAt (Event.makeRead a).object, isRmw := true }).Fresh :=
    fresh_replaceLastEvent h (Event.loadMade_makeRead a) fun _ => rfl
  exact {
    made := everyEvent_pushEvent hread.made (Event.loadMade_makeWrite a written)
    reads := .inl fun _ => rfl }

theorem fresh_compareExchange {env : Env} {a : SymAddrSize} {written : List UInt8}
    {success : Bool} (h : b.Fresh)
    (hc : b.compareExchange env a written success = some b') : b'.Fresh := by
  unfold compareExchange at hc
  split at hc
  · split at hc
    · simp only [Option.bind_eq_bind, Option.bind_eq_some_iff] at hc
      obtain ⟨b1, hcomplete, hc⟩ := hc
      have h1 := fresh_completeRmw h hcomplete
      split at hc
      · cases hc
        exact h1
      · cases hc
        -- the current event is still the write
        have hevent : b1.currentEvent = b.rmwWriteEvent a written :=
          congrArg Execution.currentEvent (execution_completeRmw hcomplete)
        refine ⟨everyEvent_modifyEvent h1.made fun _ he => he,
          .inl (readsMemory_of_not_isRead ?_)⟩
        show b1.currentEvent.isRead = false
        rw [hevent]
        exact Event.isRead_makeWrite a written
    · cases hc
      exact fresh_enableRmw a h
  · cases hc
    exact fresh_localRmw a written success h

theorem fresh_newThread (b : Builder) (h : b.threads = [{}]) : b.Fresh := by
  have hnone : ∀ P, b.EveryEvent P := by
    intro P th hth e he
    rw [h, List.mem_singleton] at hth
    rw [hth] at he
    cases he
  exact ⟨hnone _, .inr (hnone _)⟩

theorem fresh_apply {env : Env} {op : Operation} (h : b.Fresh)
    (ha : b.apply env op = some b') : b'.Fresh := by
  cases op with
  | schedule =>
    simp only [apply, Option.map_eq_some_iff] at ha
    obtain ⟨⟨b1, proc⟩, hschedule, rfl⟩ := ha
    exact fresh_schedule h hschedule
  | reset =>
    simp only [apply, Option.map_eq_some_iff] at ha
    obtain ⟨⟨b1, more⟩, hreset, rfl⟩ := ha
    obtain ⟨b2, hexec, ⟨_, rfl⟩ | ⟨state, _, rfl⟩⟩ := reset_cases hreset
    · exact (h.of_execution hexec).keep rfl rfl fun _ _ hP => hP
    · exact fresh_newThread _ rfl
  | spawn =>
    cases ha
    exact fresh_spawn h
  | join tgt =>
    cases ha
    exact fresh_join tgt h
  | atomicRmw a written =>
    simp only [apply, atomicRmw] at ha
    split at ha
    · split at ha
      · exact fresh_completeRmw h ha
      · cases ha
        exact fresh_enableRmw a h
    · cases ha
      exact fresh_localRmw a written true h
  | compareExchange a written success => exact fresh_compareExchange h ha
  | load a =>
    cases ha
    exact fresh_load a h
  | atomicStore a written =>
    cases ha
    exact fresh_atomicStore a written h
  | refuseSchedule =>
    cases ha
    refine h.keep rfl rfl fun _ _ hP => ?_
    exact everyEvent_modifyThread_of_events (everyEvent_popEvent b.currentThread hP)
      fun _ => rfl
  | markAvailable proc =>
    cases ha
    exact fresh_modifyThread h fun _ => rfl
  | markUnavailable proc =>
    cases ha
    exact fresh_modifyThread h fun _ => rfl
  | cancelReplay =>
    cases ha
    exact h.keep rfl rfl fun _ _ hP => hP
  | setRmwOperation op val =>
    cases ha
    exact h.keep rfl rfl fun _ _ hP => hP
  | setCmpxchgOperation expected xchg =>
    cases ha
    exact h.keep rfl rfl fun _ _ hP => hP

/-- The event executed last reads the memory, after any calls. -/
theorem Reaches.fresh {env : Env} (h : Reaches env b b') (hb : b.Fresh) :
    b'.Fresh := by
  obtain ⟨ops, hrun⟩ := h
  induction ops generalizing b with
  | nil =>
    cases hrun
    exact hb
  | cons op ops ih =>
    obtain ⟨b1, happly, hrun⟩ := run_cons hrun
    exact ih (fresh_apply hb happly) hrun

/-! ## The analysis of a write -/

/-- No explored witness of the write calls for a lead. -/
def Untempted (env : Env) (b : Builder) (event : Event) : Prop :=
  ∀ i ∈ b.exploredWitnesses env event, ¬b.CallsForLead env event i

/-- What the backward analysis of a write leaves as it was: the leads, the
pending leads and the covered values. -/
structure LeavesLeads (b b' : Builder) (value : Value) : Prop where
  covered : ∀ read, value ∈ b'.covered read → value ∈ b.covered read
  ewLeads : ∀ state read,
    b'.pendingLeads state read value = b.pendingLeads state read value
  leads : ∀ state, (b'.stateAt state).leads = (b.stateAt state).leads
  eiLeads : ∀ state, (b'.stateAt state).eiLeads = (b.stateAt state).eiLeads

/-- The analysis of a write leaves the leads alone exactly when no explored
witness calls for one. -/
theorem leavesLeads_updateLeads_iff {env : Env} {b b' : Builder} {event : Event}
    {f : SOPFormula} (hwrite : event.isWrite)
    (h : b.updateLeads env event f = some b') :
    b.LeavesLeads b' event.value ↔ b.Untempted env event := by
  obtain ⟨b1, leads, hloop, hunions⟩ := updateLeads_write hwrite h
  unfold backwardAnalysisWrite at hloop
  constructor
  · intro hleaves i hi hcalls
    -- the first loop adds an entry, and the unions keep it
    obtain ⟨hcovered, hew⟩ := unions_keep hunions
    rcases backwardWriteLoop_tempted (exploredWitnesses_nodup env b event) hi
      (b := { b with parallelLoops := b.parallelLoops + 1 }) hcalls hloop with
      hvalue | ⟨state, hpending⟩
    · refine hcalls.1 (.inr (hleaves.covered i ?_))
      unfold covered at hvalue ⊢
      rw [hcovered]
      exact hvalue
    · refine hpending ?_
      have hkeep := hleaves.ewLeads state i
      unfold pendingLeads at hkeep ⊢
      rw [hew] at hkeep
      exact hkeep
  · intro hquiet
    obtain ⟨rfl, rfl⟩ := backwardWriteLoop_untempted
      (b := { b with parallelLoops := b.parallelLoops + 1 }) hquiet hloop
    have hnone : env.stateOrder [] = [] :=
      List.perm_nil.mp (env.stateOrder_perm [])
    rw [List.map_nil, hnone] at hunions
    cases hunions
    exact ⟨fun _ hvalue => hvalue, fun _ _ => rfl, fun _ => rfl, fun _ => rfl⟩

/-! ## The compare-exchange -/

/-- A global compare-exchange that was peeked completes: its read is the event
executed last. -/
structure Completes (b : Builder) (a : SymAddrSize) : Prop where
  isGlobal : a.block.isGlobal
  peeked : b.peeked a
  current : b.currentEvent = b.lastThreadEvent

/-- The state in `complete_rmw` before the analysis: the write is in the
thread table and in the leads of its read. -/
def withRmwWrite (b : Builder) (a : SymAddrSize) (written : List UInt8) : Builder :=
  let event := b.rmwWriteEvent a written
  ({ b.pushEvent b.currentThread event with currentEvent := event }).addWriteToLeads
    b.lastThreadEvent.iid event.iid

/-- A failed compare-exchange writes nothing: the memory and the last writes
are those before, and no read has the exchange value covered or a lead for
it on account of this event. -/
structure StoresNothing (b b' : Builder) (a : SymAddrSize) (written : List UInt8) :
    Prop where
  mem : ∀ o, b'.memAt o = b.memAt o
  lastWrite : ∀ o, getD b'.lastWrite o default = getD b.lastWrite o default
  leads : (b.withRmwWrite a written).LeavesLeads b' (b.rmwWriteEvent a written).value

theorem peeked_symEvent {b : Builder} {a : SymAddrSize} (h : b.peeked a) :
    b.lastThreadEvent.symEvent = some (.load a) := by
  unfold peeked at h
  cases hev : b.lastThreadEvent.symEvent with
  | none =>
    rw [hev] at h
    cases h
  | some ev =>
    rw [hev] at h
    cases ev with
    | load a' =>
      have : a = a' := by simpa [SymEv.same] using h
      rw [this]
    | store a' written => cases h
    | spawn num => cases h
    | join num => cases h

/-- The peeked read stands in the thread table. -/
theorem lastThreadEvent_mem {P : Event → Prop} {b : Builder} (h : b.EveryEvent P)
    (hev : b.lastThreadEvent.symEvent ≠ none) : P b.lastThreadEvent := by
  have hthread := h.of_getD b.currentThread
  unfold lastThreadEvent at hev ⊢
  cases hlast : (b.threads.getD b.currentThread default).events.getLast? with
  | none =>
    rw [hlast] at hev
    exact absurd rfl hev
  | some e => exact hthread e (List.mem_of_getLast? hlast)

/-- The value that a failed compare-exchange restores is the one in memory. -/
theorem Completes.reads {b : Builder} {a : SymAddrSize} (hc : b.Completes a)
    (h : b.Fresh) : b.currentEvent.object = Event.objectOf a ∧
      b.lastThreadEvent.value = b.memAt (Event.objectOf a) := by
  have hev := peeked_symEvent hc.peeked
  have hsome : b.lastThreadEvent.symEvent ≠ none := by
    rw [hev]
    exact nofun
  obtain ⟨htype, hobject⟩ := lastThreadEvent_mem h.made hsome a hev
  refine ⟨by rw [hc.current, hobject], ?_⟩
  rcases h.reads with hreads | hblank
  · have hread : b.currentEvent.isRead := by
      rw [hc.current]
      simp [Event.isRead, Event.isGlobal, hev, htype, SymEv.addr?, hc.isGlobal]
    rw [← hc.current, hreads hread, hc.current, hobject]
  · exact absurd (lastThreadEvent_mem hblank hsome) hsome

/-- What `complete_rmw` does to the leads: nothing while replaying, and the
backward analysis of the write otherwise. -/
theorem completeRmw_cases {env : Env} {b b' : Builder} {a : SymAddrSize}
    {written : List UInt8} (h : b.completeRmw env a written = some b') :
    ∃ b1, (b.isReplaying ∧ b1 = b.withRmwWrite a written ∨
        b.isReplaying = false ∧ ∃ f, (b.withRmwWrite a written).updateLeads env
          (b.rmwWriteEvent a written) f = some b1) ∧
      b'.states = b1.states ∧ b'.coveredReadValues = b1.coveredReadValues ∧
      b'.ewLeads = b1.ewLeads := by
  unfold completeRmw at h
  simp only [Option.bind_eq_bind, Option.pure_def, Option.bind_some] at h
  generalize hb0 : ({ b.pushEvent b.currentThread (b.rmwWriteEvent a written) with
    currentEvent := b.rmwWriteEvent a written } : Builder).addWriteToLeads
      b.lastThreadEvent.iid (b.rmwWriteEvent a written).iid = b0 at h
  have hwith : b.withRmwWrite a written = b0 := hb0
  have hreplaying : b0.isReplaying = b.isReplaying := by
    rw [← hb0]
    rfl
  rw [hreplaying] at h
  rw [hwith]
  split at h
  · next hr =>
    cases h
    exact ⟨b0, .inl ⟨hr, rfl⟩, rfl, rfl, rfl⟩
  · next hr =>
    rw [Option.bind_eq_some_iff] at h
    obtain ⟨b2, hupdate, h⟩ := h
    cases h
    exact ⟨b2, .inr ⟨Bool.eq_false_iff.mpr hr, _, hupdate⟩, rfl, rfl, rfl⟩

theorem LeavesLeads.congr {b b1 b2 : Builder} {value : Value}
    (h : b.LeavesLeads b1 value) (hstates : b2.states = b1.states)
    (hcovered : b2.coveredReadValues = b1.coveredReadValues)
    (hew : b2.ewLeads = b1.ewLeads) : b.LeavesLeads b2 value where
  covered := by
    unfold Builder.covered
    rw [hcovered]
    exact h.covered
  ewLeads := by
    unfold pendingLeads
    rw [hew]
    exact h.ewLeads
  leads := by
    unfold stateAt
    rw [hstates]
    exact h.leads
  eiLeads := by
    unfold stateAt
    rw [hstates]
    exact h.eiLeads

theorem leavesLeads_completeRmw_iff {env : Env} {b b' : Builder} {a : SymAddrSize}
    {written : List UInt8} (hglobal : a.block.isGlobal)
    (h : b.completeRmw env a written = some b') :
    (b.withRmwWrite a written).LeavesLeads b' (b.rmwWriteEvent a written).value ↔
      b.isReplaying ∨
        (b.withRmwWrite a written).Untempted env (b.rmwWriteEvent a written) := by
  have hwrite : (b.rmwWriteEvent a written).isWrite := by
    simp [rmwWriteEvent, Event.makeWrite, Event.isWrite, Event.isGlobal, SymEv.addr?,
      hglobal]
  obtain ⟨b1, hb1, hstates, hcovered, hew⟩ := completeRmw_cases h
  have hsame : (b.withRmwWrite a written).LeavesLeads b'
      (b.rmwWriteEvent a written).value ↔
      (b.withRmwWrite a written).LeavesLeads b1 (b.rmwWriteEvent a written).value :=
    ⟨fun hl => hl.congr hstates.symm hcovered.symm hew.symm,
      fun hl => hl.congr hstates hcovered hew⟩
  rw [hsame]
  rcases hb1 with ⟨hreplaying, rfl⟩ | ⟨hreplaying, f, hupdate⟩
  · refine iff_of_true ?_ (.inl hreplaying)
    exact ⟨fun _ hvalue => hvalue, fun _ _ => rfl, fun _ => rfl, fun _ => rfl⟩
  · rw [leavesLeads_updateLeads_iff hwrite hupdate]
    simp [hreplaying]

/-- What a failed compare-exchange does behind `complete_rmw`. -/
theorem compareExchange_failed {env : Env} {b b' : Builder} {a : SymAddrSize}
    {written : List UInt8} (hc : b.Completes a)
    (h : b.compareExchange env a written false = some b') :
    ∃ b1, b.completeRmw env a written = some b1 ∧
      b' = { b1.modifyEvent b1.currentEvent.iid
          (fun e => { e with value := b.lastThreadEvent.value }) with
        lastWrite := insert b1.lastWrite b1.currentEvent.object
          (getD b.lastWrite b.currentEvent.object default)
        mem := insert b1.mem b1.currentEvent.object b.lastThreadEvent.value } := by
  unfold compareExchange at h
  rw [if_pos hc.isGlobal, if_pos hc.peeked] at h
  simp only [Option.bind_eq_bind, Option.bind_eq_some_iff] at h
  obtain ⟨b1, hcomplete, h⟩ := h
  cases h
  exact ⟨b1, hcomplete, rfl⟩

/-- A failed compare-exchange writes nothing exactly while replaying, and when
no read of the execution calls for a lead with the exchange value. -/
theorem storesNothing_iff {env : Env} {checkOptimality : Bool} {b b' : Builder}
    {a : SymAddrSize} {written : List UInt8}
    (hreaches : Reaches env (construct checkOptimality) b) (hc : b.Completes a)
    (h : b.compareExchange env a written false = some b') :
    b.StoresNothing b' a written ↔ b.isReplaying ∨
      (b.withRmwWrite a written).Untempted env (b.rmwWriteEvent a written) := by
  have hfresh : b.Fresh := hreaches.fresh (fresh_newThread _ rfl)
  obtain ⟨hobject, hvalue⟩ := hc.reads hfresh
  obtain ⟨b1, hcomplete, rfl⟩ := compareExchange_failed hc h
  have hexec := execution_completeRmw hcomplete
  have hwritten : b1.currentEvent.object = Event.objectOf a :=
    congrArg (fun x : Execution => x.currentEvent.object) hexec
  have hmem : b1.mem = insert b.mem (Event.objectOf a)
      (b.rmwWriteEvent a written).value := congrArg Execution.mem hexec
  have hlast : b1.lastWrite = insert b.lastWrite (Event.objectOf a)
      (b.rmwWriteEvent a written).iid := congrArg Execution.lastWrite hexec
  rw [← leavesLeads_completeRmw_iff hc.isGlobal hcomplete]
  constructor
  · intro hstores
    exact hstores.leads.congr rfl rfl rfl
  · intro hleaves
    refine ⟨fun o => ?_, fun o => ?_, hleaves.congr rfl rfl rfl⟩
    · show getD (insert b1.mem b1.currentEvent.object b.lastThreadEvent.value) o 0 = _
      rw [hwritten, hmem, getD_insert, getD_insert]
      split
      · next ho => rw [hvalue, ho]
      · rfl
    · show getD (insert b1.lastWrite b1.currentEvent.object
        (getD b.lastWrite b.currentEvent.object default)) o default = _
      rw [hwritten, hlast, getD_insert, getD_insert]
      split
      · next ho => rw [hobject, ho]
      · rfl

/-! Main spawns a thread that loads `x`, and then fails to exchange `5` for
another value. -/

def failedExchangeProgram (new : Value) : Program := fun code results =>
  let x := globalInt 1
  match code, results.length with
  | 0, 0 | 0, 2 | 1, 0 => .skip
  | 0, 1 => .spawn 1
  | 0, 3 => .cmpxchg x 5 new
  | 1, 1 => .load x
  | _, _ => .ret

/-- The exchange value `0` is the one that the load read. -/
theorem storesNothing_iff_sameValue :
    ∃ checkOptimality b b', Reaches (.inOrder 40) (construct checkOptimality) b ∧
      b.Completes (globalInt 1) ∧
      b.compareExchange (.inOrder 40) (globalInt 1) (bytesOf 0) false = some b' ∧
      b.isReplaying = false ∧ b.StoresNothing b' (globalInt 1) (bytesOf 0) := by
  have hrun : ((Interp.advance (.inOrder 40) (failedExchangeProgram 0) 6
      (construct false) {}).any fun r => (r.1.schedule (.inOrder 40)).any fun s =>
        s.1.peeked (globalInt 1) && s.1.currentEvent = s.1.lastThreadEvent &&
        (s.1.compareExchange (.inOrder 40) (globalInt 1) (bytesOf 0) false).isSome &&
        !s.1.isReplaying &&
        ((s.1.withRmwWrite (globalInt 1) (bytesOf 0)).exploredWitnesses (.inOrder 40)
          (s.1.rmwWriteEvent (globalInt 1) (bytesOf 0))).all fun i =>
            (s.1.withRmwWrite (globalInt 1) (bytesOf 0)).WitnessPassed
              (s.1.rmwWriteEvent (globalInt 1) (bytesOf 0)) i) = true := by
    decide +kernel
  rw [Option.any_eq_true] at hrun
  obtain ⟨⟨b0, it⟩, hadvance, hrun⟩ := hrun
  rw [Option.any_eq_true] at hrun
  obtain ⟨⟨b, t⟩, hschedule, hrun⟩ := hrun
  simp only [Bool.and_eq_true, decide_eq_true_eq, Option.isSome_iff_exists,
    List.all_eq_true, Bool.not_eq_true'] at hrun
  obtain ⟨⟨⟨⟨hpeeked, hcurrent⟩, b', hb'⟩, hreplaying⟩, hpassed⟩ := hrun
  have hreachable := (Interp.Reachable.start false).advance hadvance
  obtain ⟨checkOptimality, hreaches0⟩ := hreachable.reaches
  have hreaches := hreaches0.trans (.of_apply .schedule (by rw [apply, hschedule]; rfl))
  have hcompletes : b.Completes (globalInt 1) := ⟨rfl, hpeeked, hcurrent⟩
  refine ⟨checkOptimality, b, b', hreaches, hcompletes, hb', hreplaying, ?_⟩
  refine (storesNothing_iff hreaches hcompletes hb').mpr (.inr fun i hi hcalls => ?_)
  exact hcalls.1 (hpassed i hi)

/-- The exchange fails, and its value `1` is covered for the load all the
same. -/
theorem not_storesNothing :
    ∃ b0 it b b', Interp.Reachable (.inOrder 40) (failedExchangeProgram 1) b0 it ∧
      b0.schedule (.inOrder 40) = some (b, some 0) ∧
      it.nextInstr (failedExchangeProgram 1) 0 = .cmpxchg (globalInt 1) 5 1 ∧
      it.read (globalInt 1) = 0 ∧ b.Completes (globalInt 1) ∧
      b.compareExchange (.inOrder 40) (globalInt 1) (bytesOf 1) false = some b' ∧
      ¬b.StoresNothing b' (globalInt 1) (bytesOf 1) := by
  have hrun : ((Interp.advance (.inOrder 40) (failedExchangeProgram 1) 6
      (construct false) {}).any fun r => (r.1.schedule (.inOrder 40)).any fun s =>
        s.2 = some 0 &&
        r.2.nextInstr (failedExchangeProgram 1) 0 = .cmpxchg (globalInt 1) 5 1 &&
        r.2.read (globalInt 1) = 0 &&
        s.1.peeked (globalInt 1) && s.1.currentEvent = s.1.lastThreadEvent &&
        1 ∉ (s.1.withRmwWrite (globalInt 1) (bytesOf 1)).covered ⟨1, 1⟩ &&
        (s.1.compareExchange (.inOrder 40) (globalInt 1) (bytesOf 1) false).any
          fun b' => 1 ∈ b'.covered ⟨1, 1⟩) = true := by
    decide +kernel
  rw [Option.any_eq_true] at hrun
  obtain ⟨⟨b0, it⟩, hadvance, hrun⟩ := hrun
  rw [Option.any_eq_true] at hrun
  obtain ⟨⟨b, t⟩, hschedule, hrun⟩ := hrun
  simp only [Bool.and_eq_true, decide_eq_true_eq, Option.any_eq_true] at hrun
  obtain ⟨⟨⟨⟨⟨⟨ht, hinstr⟩, hread⟩, hpeeked⟩, hcurrent⟩, hold⟩, b', hb', hnew⟩ := hrun
  have hreachable := (Interp.Reachable.start false).advance hadvance
  refine ⟨b0, it, b, b', hreachable, ht ▸ hschedule, hinstr, hread,
    ⟨rfl, hpeeked, hcurrent⟩, hb', fun hstores => hold ?_⟩
  exact hstores.leads.covered _ hnew

end Builder

end ViEqui
