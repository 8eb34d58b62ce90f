import ViEqui.Power.Runs

/-!
# What fetching an event changes

A fetched event is at the end of what its thread has fetched.  It may have been there from
an earlier computation; either way it has the data of the call, no registered accesses and
no fence behind it.  All other events stay as they are.
-/

namespace ViEqui.Power.TB

open GetD

variable {cfg : Config} {tb tb' : TB} {p i q j proc l s : Nat} {addrDeps dataDeps : VecSet Nat}

/-- The event that is fetched next in the thread, with the data of the call. -/
structure Fresh (tb : TB) (proc l s : Nat) (addrDeps dataDeps : VecSet Nat) (evt : PAEvent) :
    Prop where
  iid : evt.iid = ⟨proc, (tb.thread proc).fchCount + 1⟩
  filledStatus : evt.filledStatus = .complete
  loadCount : evt.loadCount = l
  hasLoad : evt.hasLoad = decide (0 < l)
  hasStore : evt.hasStore = decide (0 < s)
  accesses : evt.accesses = (tb.newEvent proc l s addrDeps dataDeps).accesses
  baccesses : evt.baccesses = []
  accessTgts : evt.accessTgts = ∅
  addrDeps : evt.addrDeps = addrDeps
  dataDeps : evt.dataDeps = dataDeps
  ctrlDeps : evt.ctrlDeps = (tb.thread proc).ctrlDeps
  ctrlIsyncDeps : evt.ctrlIsyncDeps = (tb.thread proc).ctrlIsyncDeps
  eieioIdxBefore : evt.eieioIdxBefore = (tb.thread proc).lastFetchedEieioIdx
  lwsyncIdxBefore : evt.lwsyncIdxBefore = (tb.thread proc).lastFetchedLwsyncIdx
  syncIdxBefore : evt.syncIdxBefore = (tb.thread proc).lastFetchedSyncIdx
  eieioIdxAfter : evt.eieioIdxAfter = -1
  lwsyncIdxAfter : evt.lwsyncIdxAfter = -1
  syncIdxAfter : evt.syncIdxAfter = -1
  clockIndex : evt.clockIndex = tb.nextClockIndex
  /-- An event that was there keeps `committed`. -/
  committed : evt.committed = false ∨
    (tb.fchAt proc (tb.thread proc).fchCount).filledStatus = .complete ∧
      evt.committed = (tb.fchAt proc (tb.thread proc).fchCount).committed
  newBranches : ∀ B ∈ evt.newBranches,
    B ∈ (tb.fchAt proc (tb.thread proc).fchCount).newBranches

/-- Where the event `evt` is entered into the thread. -/
structure Enters (tb : TB) (proc : Nat) (evt : PAEvent) (tb' : TB) : Prop where
  lt : proc < tb.threads.length
  threads : tb'.threads.length = tb.threads.length
  fch : tb'.fch.length = tb.fch.length
  other : ∀ q, q ≠ proc → tb'.thread q = tb.thread q
  self : ∃ k ≤ max (tb.thread proc).addrKnownPrefix ((tb.thread proc).fchCount + 1),
    tb'.thread proc =
      { tb.thread proc with fchCount := (tb.thread proc).fchCount + 1, addrKnownPrefix := k }
  length : ∀ q, (tb'.evtsOf q).length = if q = proc then
    max (tb.evtsOf q).length ((tb.thread proc).fchCount + 1) else (tb.evtsOf q).length
  evt : ∀ q i, tb'.fchAt q i = if q = proc ∧ i = (tb.thread proc).fchCount then evt
    else tb.fchAt q i
  count : tb'.uncommittedNonblockingCount = tb.uncommittedNonblockingCount + 1
  execPrefix : tb'.execPrefix = tb.execPrefix
  schedCount : tb'.schedCount = tb.schedCount
  mem : tb'.mem = tb.mem
  nextClockIndex : tb'.nextClockIndex = tb.nextClockIndex + 1

/-- The event is there already, or it is new. -/
theorem fresh_refill {evt : PAEvent}
    (hevt : evt = tb.fchAt proc (tb.thread proc).fchCount)
    (h : evt.Refillable (tb.newEvent proc l s addrDeps dataDeps)) :
    Fresh tb proc l s addrDeps dataDeps
      { evt.refill (tb.newEvent proc l s addrDeps dataDeps) with
        iid := ⟨proc, (tb.thread proc).fchCount + 1⟩
        ctrlDeps := (tb.thread proc).ctrlDeps
        ctrlIsyncDeps := (tb.thread proc).ctrlIsyncDeps } := by
  unfold PAEvent.Refillable at h
  unfold PAEvent.refill
  cases hstatus : evt.filledStatus with
  | empty =>
    exact ⟨rfl, rfl, rfl, rfl, rfl, rfl, rfl, rfl, rfl, rfl, rfl, rfl, rfl, rfl, rfl, rfl, rfl,
      rfl, rfl, .inl rfl, fun _ hB => absurd hB List.not_mem_nil⟩
  | parameter =>
    exact ⟨rfl, rfl, rfl, rfl, rfl, rfl, rfl, rfl, rfl, rfl, rfl, rfl, rfl, rfl, rfl, rfl, rfl,
      rfl, rfl, .inl rfl, fun _ hB => hevt ▸ hB⟩
  | complete =>
    rw [hstatus] at h
    obtain ⟨hload, hhasLoad, hhasStore, haddr, hdata, heieio, hlwsync, hsync, -⟩ := h
    exact ⟨rfl, rfl, hload, hhasLoad, hhasStore, rfl, rfl, rfl, haddr, hdata, rfl, rfl,
      heieio, hlwsync, hsync, rfl, rfl, rfl, rfl, .inr ⟨hevt ▸ hstatus, hevt ▸ rfl⟩,
      fun _ hB => hevt ▸ hB⟩

theorem fresh_new : Fresh tb proc l s addrDeps dataDeps
    { tb.newEvent proc l s addrDeps dataDeps with
      iid := ⟨proc, (tb.thread proc).fchCount + 1⟩
      ctrlDeps := (tb.thread proc).ctrlDeps
      ctrlIsyncDeps := (tb.thread proc).ctrlIsyncDeps } :=
  ⟨rfl, rfl, rfl, rfl, rfl, rfl, rfl, rfl, rfl, rfl, rfl, rfl, rfl, rfl, rfl, rfl, rfl,
    rfl, rfl, .inl rfl, fun _ hB => absurd hB List.not_mem_nil⟩

/-- The thread with its events, whose event at the end is there. -/
theorem enters_enter {evts : List PAEvent} {evt : PAEvent} (hproc : proc < tb.threads.length)
    (hfch : tb.threads.length ≤ tb.fch.length)
    (hlen : evts.length = max (tb.evtsOf proc).length ((tb.thread proc).fchCount + 1))
    (hevts : ∀ i, i ≠ (tb.thread proc).fchCount → evts.getD i {} = tb.fchAt proc i)
    (hevt : evt = { evts.getD (tb.thread proc).fchCount {} with
      iid := ⟨proc, (tb.thread proc).fchCount + 1⟩
      ctrlDeps := (tb.thread proc).ctrlDeps
      ctrlIsyncDeps := (tb.thread proc).ctrlIsyncDeps }) :
    Enters tb proc evt ((tb.enter proc evts).updateAddrKnownPrefix proc) := by
  have hlt : proc < tb.fch.length := by omega
  have hthread : ∀ q, (tb.enter proc evts).thread q = if q = proc ∧ proc < tb.threads.length then
      { tb.thread proc with fchCount := (tb.thread proc).fchCount + 1 } else tb.thread q :=
    fun q => thread_modifyThread proc q _
  have hthreads : (tb.enter proc evts).threads.length = tb.threads.length :=
    List.length_modify _ _ _
  have hself := hthread proc
  rw [if_pos ⟨rfl, hproc⟩] at hself
  have hevts' : ∀ q, (tb.enter proc evts).evtsOf q = if q = proc then
      evts.modify (tb.thread proc).fchCount (fun evt =>
        { evt with
          iid := ⟨proc, (tb.thread proc).fchCount + 1⟩
          ctrlDeps := (tb.thread proc).ctrlDeps
          ctrlIsyncDeps := (tb.thread proc).ctrlIsyncDeps }) else tb.evtsOf q :=
    fun q => getD_set _ _ hlt
  refine ⟨hproc, ?_, ?_, fun q hq => ?_, ?_, fun q => ?_, fun q i => ?_, rfl, rfl, rfl, rfl, rfl⟩
  · exact (List.length_modify _ _ _).trans hthreads
  · exact List.length_set
  · rw [updateAddrKnownPrefix, thread_modifyThread, if_neg fun h => hq h.1, hthread,
      if_neg fun h => hq h.1]
  · refine ⟨(tb.enter proc evts).advance proc (·.unknownAddrCount = 0)
      (tb.thread proc).addrKnownPrefix, ?_, ?_⟩
    · have hle : (tb.enter proc evts).advance proc (·.unknownAddrCount = 0)
          (tb.thread proc).addrKnownPrefix ≤
          max (tb.thread proc).addrKnownPrefix ((tb.enter proc evts).thread proc).fchCount :=
        advance_le _ _
      rwa [hself] at hle
    · rw [updateAddrKnownPrefix, thread_modifyThread,
        if_pos ⟨rfl, show proc < (tb.enter proc evts).threads.length by rwa [hthreads]⟩, hself]
  · show ((tb.enter proc evts).evtsOf q).length = _
    rw [hevts']
    split_ifs with hq
    · rw [List.length_modify, hlen, hq]
    · rfl
  · show ((tb.enter proc evts).evtsOf q).getD i {} = _
    rw [hevts']
    by_cases hq : q = proc
    · rw [if_pos hq, getD_modify]
      subst hq
      by_cases hi : i = (tb.thread q).fchCount
      · rw [if_pos ⟨hi, by omega⟩, if_pos ⟨rfl, hi⟩, hevt]
      · rw [if_neg fun h => hi h.1, if_neg fun h => hi h.2, hevts i hi]
    · rw [if_neg hq, if_neg fun h => hq h.1]
      rfl

theorem fetch_enters (h : tb.fetch proc l s addrDeps dataDeps = some tb') :
    ∃ evt, Fresh tb proc l s addrDeps dataDeps evt ∧ Enters tb proc evt tb' := by
  unfold fetch at h
  dsimp only at h
  split_ifs at h with hproc hold hrefill hend
  · cases h
    refine ⟨_, fresh_refill rfl hrefill, enters_enter hproc.1 hproc.2 ?_ (fun i hi => ?_) ?_⟩
    · rw [List.length_modify]
      exact (Nat.max_eq_left hold).symm
    · rw [getD_modify, if_neg fun h => hi h.1]
      rfl
    · rw [getD_modify, if_pos ⟨rfl, hold⟩]
      rfl
  · cases h
    refine ⟨_, fresh_new, enters_enter hproc.1 hproc.2 ?_ (fun i hi => ?_) ?_⟩
    · rw [List.length_append, ← hend]
      exact (Nat.max_eq_right (by unfold evtsOf; omega)).symm
    · rw [getD_concat, if_neg (by omega)]
      rfl
    · rw [getD_concat, if_pos hend]

end ViEqui.Power.TB
