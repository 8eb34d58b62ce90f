import Mathlib.Data.List.GetD
import ViEqui.Reachable

/-!
# The thread table

Every access of a global object carries the thread and the index at which it
stands in the thread table, after any calls of the trace builder
(`Reaches.stamped`).
-/

namespace ViEqui

open AssocMap

/-- The global accesses of the thread `t` carry their place. -/
def Thread.Stamped (t : Nat) (th : Thread) : Prop :=
  ∀ k, (th.events.getD k default).isGlobal →
    (th.events.getD k default).iid = ⟨t, k⟩

/-- The global accesses carry their place in the thread table. -/
def Container.Stamped (c : Container) : Prop :=
  ∀ t, (c.threads.getD t default).Stamped t

theorem Container.Stamped.iid {c : Container} (h : c.Stamped) {i : IID}
    (hi : (c.getEvent i).isGlobal) : (c.getEvent i).iid = i :=
  h i.pid i.idx hi

theorem Thread.stamped_nil (t : Nat) {th : Thread} (h : th.events = []) :
    th.Stamped t := by
  intro k hk
  rw [h] at hk
  cases hk

theorem Thread.Stamped.congr {t : Nat} {th th' : Thread} (h : th.Stamped t)
    (hevents : th'.events = th.events) : th'.Stamped t := by
  unfold Stamped
  rw [hevents]
  exact h

theorem Thread.Stamped.push {t : Nat} {th th' : Thread} {e : Event}
    (h : th.Stamped t) (hevents : th'.events = th.events ++ [e])
    (he : e.isGlobal → e.iid = ⟨t, th.events.length⟩) : th'.Stamped t := by
  intro k
  rw [hevents]
  by_cases hk : k < th.events.length
  · rw [List.getD_append _ _ _ _ hk]
    exact h k
  · rw [List.getD_append_right _ _ _ _ (Nat.le_of_not_lt hk)]
    by_cases hk' : k = th.events.length
    · subst hk'
      simpa using he
    · intro hglobal
      have : ([e].getD (k - th.events.length) default) = default := by
        apply List.getD_eq_default
        simp
        omega
      rw [this] at hglobal
      cases hglobal

theorem Thread.Stamped.pop {t : Nat} {th th' : Thread} (h : th.Stamped t)
    (hevents : th'.events = th.events.dropLast) : th'.Stamped t := by
  intro k
  rw [hevents]
  by_cases hk : k < th.events.dropLast.length
  · have : th.events.dropLast.getD k default = th.events.getD k default := by
      rw [List.getD_eq_getElem?_getD, List.getD_eq_getElem?_getD,
        List.getElem?_dropLast]
      rw [List.length_dropLast] at hk
      rw [if_pos hk]
    rw [this]
    exact h k
  · intro hglobal
    rw [List.getD_eq_default _ _ (Nat.le_of_not_lt hk)] at hglobal
    cases hglobal

theorem Thread.Stamped.modify {t : Nat} {th th' : Thread} {i : Nat}
    {f : Event → Event} (h : th.Stamped t)
    (hevents : th'.events = th.events.modify i f)
    (hf : ∀ e, (f e).iid = e.iid ∧ (f e).isGlobal = e.isGlobal) :
    th'.Stamped t := by
  intro k
  have hget : (th.events.modify i f).getD k default = th.events.getD k default ∨
      (th.events.modify i f).getD k default = f (th.events.getD k default) := by
    simp only [List.getD_eq_getElem?_getD, List.getElem?_modify]
    cases th.events[k]? with
    | none => exact .inl (by split <;> rfl)
    | some e =>
      split
      · exact .inr rfl
      · exact .inl rfl
  rw [hevents]
  rcases hget with hget | hget <;> rw [hget]
  · exact h k
  · rw [(hf _).1, (hf _).2]
    exact h k

namespace Builder

theorem threads_getD_modifyThread (b : Builder) (t i : Nat) (f : Thread → Thread) :
    (b.modifyThread t f).threads.getD i default =
      if i = t ∧ t < b.threads.length then f (b.threads.getD i default)
      else b.threads.getD i default := by
  unfold modifyThread
  simp only [List.getD_eq_getElem?_getD, List.getElem?_modify]
  by_cases hi : i < b.threads.length
  · rw [List.getElem?_eq_getElem hi]
    by_cases ht : t = i
    · subst ht
      simp [hi]
    · simp [ht, Ne.symm ht]
  · rw [List.getElem?_eq_none (Nat.le_of_not_lt hi)]
    have : ¬(i = t ∧ t < b.threads.length) := by omega
    rw [if_neg this]
    split <;> rfl

/-- The update of a thread keeps the table when it keeps that thread. -/
theorem stamped_modifyThread {b : Builder} {t : Nat} {f : Thread → Thread}
    (h : b.Stamped)
    (hf : t < b.threads.length → (f (b.threads.getD t default)).Stamped t) :
    (b.modifyThread t f).Stamped := by
  intro i
  rw [threads_getD_modifyThread]
  split
  · next hi =>
    obtain ⟨rfl, ht⟩ := hi
    exact hf ht
  · exact h i

theorem stamped_modifyThread_of_events {b : Builder} {t : Nat}
    {f : Thread → Thread} (h : b.Stamped) (hf : ∀ th, (f th).events = th.events) :
    (b.modifyThread t f).Stamped :=
  stamped_modifyThread h fun _ => (h t).congr (hf _)

theorem stamped_pushEvent {b : Builder} {t : Nat} {e : Event} (h : b.Stamped)
    (he : e.isGlobal → e.iid = ⟨t, b.threadSize t⟩) :
    (b.pushEvent t e).Stamped :=
  stamped_modifyThread h fun _ => (h t).push rfl he

theorem stamped_popEvent {b : Builder} (t : Nat) (h : b.Stamped) :
    (b.popEvent t).Stamped :=
  stamped_modifyThread h fun _ => (h t).pop rfl

theorem stamped_modifyEvent {b : Builder} (i : IID) {f : Event → Event}
    (h : b.Stamped) (hf : ∀ e, (f e).iid = e.iid ∧ (f e).isGlobal = e.isGlobal) :
    (b.modifyEvent i f).Stamped :=
  stamped_modifyThread h fun _ => (h i.pid).modify rfl hf

theorem stamped_of_threads {c c' : Container} (h : c.Stamped)
    (hthreads : c'.threads = c.threads) : c'.Stamped := by
  intro t
  rw [hthreads]
  exact h t

theorem stamped_of_execution {b b' : Builder} (h : b.Stamped)
    (hexec : b'.execution = b.execution) : b'.Stamped :=
  stamped_of_threads h
    (congrArg (fun x : Execution => x.container.threads) hexec)

/-! ## The calls -/

theorem stamped_performAccess {b : Builder} (e : Event) (h : b.Stamped) :
    (b.performAccess e).Stamped := by
  unfold performAccess
  split
  · exact h
  · split
    · exact stamped_modifyEvent e.iid h fun _ => ⟨rfl, rfl⟩
    · exact h

theorem stamped_executeNextLead {b : Builder} (h : b.Stamped) :
    b.executeNextLead.Stamped := by
  unfold executeNextLead
  refine stamped_modifyThread_of_events ?_ fun _ => rfl
  exact stamped_performAccess _ h

theorem stamped_replaySchedule {b : Builder} (h : b.Stamped) :
    b.replaySchedule.Stamped := by
  unfold replaySchedule
  cases b.prefixStateAt b.prefixIdx with
  | none => exact stamped_pushEvent h fun hglobal => by cases hglobal
  | some state =>
    have hperform : ∀ b1 : Builder, b1.Stamped → (if
        (b1.stateAt state).leadHeadExecutionPrefix = some b1.prefixIdx then
          { b1 with alphaHead := b1.prefixIdx } else b1).Stamped := by
      intro b1 h1
      split <;> exact h1
    refine hperform _ (stamped_performAccess _ ?_)
    exact stamped_modifyThread_of_events h fun _ => rfl

theorem stamped_schedule {env : Env} {b b' : Builder} {proc : Option Nat}
    (h : b.Stamped) (hs : b.schedule env = some (b', proc)) : b'.Stamped := by
  unfold schedule at hs
  split at hs
  · cases hs
    exact stamped_replaySchedule h
  · split at hs
    · cases hs
      exact stamped_executeNextLead h
    · split at hs
      · cases hs
        exact stamped_pushEvent h fun hglobal => by cases hglobal
      · split at hs
        · cases hs
          exact h
        · simp only [Option.bind_eq_bind, Option.bind_eq_some_iff] at hs
          obtain ⟨b1, hnew, hs⟩ := hs
          have h1 : b1.Stamped :=
            stamped_of_execution (b := b.makeNewState) h (execution_computeNewLeads hnew)
          split at hs
          · cases hs
            exact stamped_executeNextLead h1
          · cases hs
            exact h1

theorem stamped_replaceLastEvent {b : Builder} (e : Event) (h : b.Stamped) :
    (b.replaceLastEvent e).Stamped :=
  stamped_pushEvent (stamped_popEvent b.currentThread h) fun _ => rfl

theorem stamped_spawn {b : Builder} (h : b.Stamped) : b.spawn.Stamped := by
  have hlast := stamped_replaceLastEvent (Event.makeSpawn b.threads.length) h
  have hthreads : ∃ cpid, b.spawn.threads =
      (b.replaceLastEvent (Event.makeSpawn b.threads.length)).threads ++
        [({ cpid } : Thread)] := ⟨_, rfl⟩
  obtain ⟨cpid, hthreads⟩ := hthreads
  intro t
  rw [hthreads]
  by_cases ht : t < (b.replaceLastEvent
      (Event.makeSpawn b.threads.length)).threads.length
  · rw [List.getD_append _ _ _ _ ht]
    exact hlast t
  · rw [List.getD_append_right _ _ _ _ (Nat.le_of_not_lt ht)]
    apply Thread.stamped_nil
    generalize t - _ = k
    cases k <;> rfl

theorem stamped_join {b : Builder} (tgt : Nat) (h : b.Stamped) :
    (b.join tgt).Stamped := by
  refine stamped_of_threads
    (stamped_replaceLastEvent (Event.makeJoin tgt) h) ?_
  show (Container.updateJoinSummary _ _).threads = _
  unfold Container.updateJoinSummary
  simp only
  split <;> rfl

theorem stamped_enableEvent {b : Builder} (e : Event) (h : b.Stamped) :
    (b.enableEvent e).Stamped :=
  stamped_modifyThread h fun _ => (h _).push rfl fun _ => rfl

theorem stamped_load {b : Builder} (a : SymAddrSize) (h : b.Stamped) :
    (b.load a).Stamped := by
  unfold load
  simp only
  split
  · exact stamped_enableEvent _ h
  · exact stamped_replaceLastEvent _ h

theorem stamped_atomicStore {b : Builder} (a : SymAddrSize)
    (written : List UInt8) (h : b.Stamped) : (b.atomicStore a written).Stamped := by
  unfold atomicStore
  simp only
  split
  · exact stamped_enableEvent _ h
  · exact stamped_replaceLastEvent _ h

theorem stamped_enableRmw {b : Builder} (a : SymAddrSize) (h : b.Stamped) :
    (b.enableRmw a).Stamped :=
  stamped_modifyEvent _ (stamped_load a h) fun _ => ⟨rfl, rfl⟩

theorem stamped_completeRmw {env : Env} {b b' : Builder} {a : SymAddrSize}
    {written : List UInt8} (h : b.Stamped)
    (hc : b.completeRmw env a written = some b') : b'.Stamped := by
  have hpush : (b.pushEvent b.currentThread (b.rmwWriteEvent a written)).Stamped :=
    stamped_pushEvent h fun _ => rfl
  have hthreads := congrArg (fun x : Execution => x.container.threads)
    (execution_completeRmw hc)
  exact stamped_of_threads hpush hthreads

theorem stamped_localRmw {b : Builder} (a : SymAddrSize) (written : List UInt8)
    (success : Bool) (h : b.Stamped) : (b.localRmw a written success).Stamped :=
  stamped_pushEvent (stamped_replaceLastEvent _ h) fun _ => rfl

theorem stamped_atomicRmw {env : Env} {b b' : Builder} {a : SymAddrSize}
    {written : List UInt8} (h : b.Stamped)
    (ha : b.atomicRmw env a written = some b') : b'.Stamped := by
  unfold atomicRmw at ha
  split at ha
  · split at ha
    · exact stamped_completeRmw h ha
    · cases ha
      exact stamped_enableRmw a h
  · cases ha
    exact stamped_localRmw a written true h

theorem stamped_compareExchange {env : Env} {b b' : Builder} {a : SymAddrSize}
    {written : List UInt8} {success : Bool} (h : b.Stamped)
    (hc : b.compareExchange env a written success = some b') : b'.Stamped := by
  unfold compareExchange at hc
  split at hc
  · split at hc
    · simp only [Option.bind_eq_bind, Option.bind_eq_some_iff] at hc
      obtain ⟨b1, hcomplete, hc⟩ := hc
      have h1 := stamped_completeRmw h hcomplete
      split at hc
      · cases hc
        exact h1
      · cases hc
        exact stamped_modifyEvent _ h1 fun _ => ⟨rfl, rfl⟩
    · cases hc
      exact stamped_enableRmw a h
  · cases hc
    exact stamped_localRmw a written success h

theorem stamped_newThread (b : Builder) : ({ b with threads := [{}] } : Builder).Stamped := by
  intro t
  apply Thread.stamped_nil
  cases t <;> rfl

theorem stamped_reset {env : Env} {b b' : Builder} {more : Bool} (h : b.Stamped)
    (hr : b.reset env = some (b', more)) : b'.Stamped := by
  obtain ⟨b1, hexec, ⟨_, rfl⟩ | ⟨state, _, rfl⟩⟩ := reset_cases hr
  · have h1 : b1.Stamped := stamped_of_execution h hexec
    exact h1
  · exact stamped_of_threads (stamped_newThread b1) rfl

theorem stamped_apply {env : Env} {b b' : Builder} {op : Operation}
    (h : b.Stamped) (ha : b.apply env op = some b') : b'.Stamped := by
  cases op with
  | schedule =>
    simp only [apply, Option.map_eq_some_iff] at ha
    obtain ⟨⟨b1, proc⟩, hschedule, rfl⟩ := ha
    exact stamped_schedule h hschedule
  | reset =>
    simp only [apply, Option.map_eq_some_iff] at ha
    obtain ⟨⟨b1, more⟩, hreset, rfl⟩ := ha
    exact stamped_reset h hreset
  | spawn =>
    cases ha
    exact stamped_spawn h
  | join tgt =>
    cases ha
    exact stamped_join tgt h
  | atomicRmw a written => exact stamped_atomicRmw h ha
  | compareExchange a written success => exact stamped_compareExchange h ha
  | load a =>
    cases ha
    exact stamped_load a h
  | atomicStore a written =>
    cases ha
    exact stamped_atomicStore a written h
  | refuseSchedule =>
    cases ha
    exact stamped_modifyThread_of_events (stamped_popEvent b.currentThread h)
      fun _ => rfl
  | markAvailable proc =>
    cases ha
    exact stamped_modifyThread_of_events h fun _ => rfl
  | markUnavailable proc =>
    cases ha
    exact stamped_modifyThread_of_events h fun _ => rfl
  | cancelReplay => cases ha; exact h
  | setRmwOperation op val => cases ha; exact h
  | setCmpxchgOperation expected xchg => cases ha; exact h

/-- The global accesses carry their place, after any calls. -/
theorem Reaches.stamped {env : Env} {b b' : Builder} (h : Reaches env b b')
    (hb : b.Stamped) : b'.Stamped := by
  obtain ⟨ops, hrun⟩ := h
  induction ops generalizing b with
  | nil =>
    cases hrun
    exact hb
  | cons op ops ih =>
    obtain ⟨b1, happly, hrun⟩ := run_cons hrun
    exact ih (stamped_apply hb happly) hrun

theorem stamped_construct (checkOptimality : Bool) :
    (construct checkOptimality).Stamped :=
  stamped_newThread {}

end Builder

theorem Interp.Reachable.stamped {env : Env} {prog : Program} {b : Builder}
    {it : Interp} (h : Reachable env prog b it) : b.Stamped := by
  obtain ⟨checkOptimality, hreaches⟩ := h.reaches
  exact hreaches.stamped (Builder.stamped_construct checkOptimality)

end ViEqui
