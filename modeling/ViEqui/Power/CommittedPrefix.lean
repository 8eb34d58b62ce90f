import Mathlib.Data.List.TakeWhile
import ViEqui.Power.RunSound

/-!
# The committed prefixes of the threads

`PrefixInv` holds in every run: the events of a committed prefix are committed, and a
committed event has all events before its last lwsync or sync in the committed prefix of its
thread.
-/

namespace ViEqui.Power

/-- The thread without its known addresses and control dependencies. -/
def Thread.settled (T : Thread) : Thread :=
  { T with addrKnownPrefix := 0, ctrlDeps := ∅, ctrlIsyncDeps := ∅ }

/-- The call neither fetches an event or a fence, nor creates a thread, nor commits. -/
def Action.isQuiet : Action → Bool
  | .abort => true
  | .registerAddr .. => true
  | .registerData .. => true
  | .registerLoadRequirement .. => true
  | .fetchCtrl .. => true
  | _ => false

namespace TB

variable {cfg : Config} {tb tb' : TB} {p i k proc : Nat} {a : Action} {e : IID}

/-! ## Calls that only register -/

/-- The event without its accesses and what is known of them. -/
def settled (evt : PAEvent) : PAEvent := withoutAccesses evt.steady

/-- What a call that only registers something leaves as it is. -/
structure Quiet (tb tb' : TB) : Prop extends SameEvts settled tb tb' where
  thread : ∀ p, (tb'.thread p).settled = (tb.thread p).settled

theorem settled_modifyThread {f : Thread → Thread}
    (hf : (f (tb.thread proc)).settled = (tb.thread proc).settled) (p : Nat) :
    ((tb.modifyThread proc f).thread p).settled = (tb.thread p).settled := by
  rw [thread_modifyThread]
  split_ifs with hp
  · rw [hf, hp.1]
  · rfl

theorem act_quiet (hquiet : a.isQuiet = true) (ha : tb.act cfg a = some tb') : Quiet tb tb' := by
  cases a with
  | abort =>
    cases ha
    exact ⟨.of_fch rfl, fun p => rfl⟩
  | registerAddr iid a addr =>
    have hevts := (calm_registerAddr ha).toSameEvts.map withoutAccesses
    refine ⟨hevts, ?_⟩
    unfold act registerAddr at ha
    obtain ⟨-, ha⟩ := Option.ite_none_right_eq_some.mp ha
    cases ha
    exact settled_modifyThread rfl
  | registerData iid a data =>
    have hevts := (calm_registerData ha).toSameEvts.map withoutAccesses
    refine ⟨hevts, ?_⟩
    unfold act registerData at ha
    obtain ⟨-, ha⟩ := Option.ite_none_right_eq_some.mp ha
    cases ha
    exact fun p => rfl
  | registerLoadRequirement iid a f =>
    have hevts := (calm_registerLoadRequirement ha).toSameEvts.map PAEvent.steady
    refine ⟨hevts, ?_⟩
    unfold act registerLoadRequirement at ha
    obtain ⟨-, ha⟩ := Option.ite_none_right_eq_some.mp ha
    cases ha
    exact fun p => rfl
  | fetchCtrl proc deps =>
    have hevts := (calm_fetchCtrl ha).toSameEvts.map settled
    refine ⟨hevts, ?_⟩
    unfold act fetchCtrl at ha
    obtain ⟨-, ha⟩ := Option.ite_none_right_eq_some.mp ha
    cases ha
    exact settled_modifyThread rfl
  | _ => cases hquiet

/-! ## The invariant -/

/-- What is committed before an event of a thread. -/
structure PrefixInv (tb : TB) : Prop where
  le : ∀ p, (tb.thread p).committedPrefix ≤ (tb.thread p).fchCount
  committed : ∀ p i, i < (tb.thread p).committedPrefix → (tb.fchAt p i).committed = true
  sync : ∀ p i, i < (tb.thread p).fchCount → (tb.fchAt p i).committed = true →
    (tb.fchAt p i).syncIdxBefore ≤ (tb.thread p).committedPrefix
  lwsync : ∀ p i, i < (tb.thread p).fchCount → (tb.fchAt p i).committed = true →
    (tb.fchAt p i).lwsyncIdxBefore ≤ (tb.thread p).committedPrefix

/-- The parts of an event that the invariant is about. -/
def waits (evt : PAEvent) : Bool × Int × Int :=
  (evt.committed, evt.syncIdxBefore, evt.lwsyncIdxBefore)

theorem PrefixInv.of_same (h : PrefixInv tb)
    (hcount : ∀ p, (tb'.thread p).fchCount = (tb.thread p).fchCount)
    (hpre : ∀ p, (tb'.thread p).committedPrefix = (tb.thread p).committedPrefix)
    (he : ∀ p i, waits (tb'.fchAt p i) = waits (tb.fchAt p i)) : PrefixInv tb' := by
  have hcommitted : ∀ p i, (tb'.fchAt p i).committed = (tb.fchAt p i).committed :=
    fun p i => congrArg Prod.fst (he p i)
  have hsync : ∀ p i, (tb'.fchAt p i).syncIdxBefore = (tb.fchAt p i).syncIdxBefore :=
    fun p i => congrArg (fun w => w.2.1) (he p i)
  have hlwsync : ∀ p i, (tb'.fchAt p i).lwsyncIdxBefore = (tb.fchAt p i).lwsyncIdxBefore :=
    fun p i => congrArg (fun w => w.2.2) (he p i)
  constructor
  · intro p
    rw [hpre, hcount]
    exact h.le p
  · intro p i hi
    rw [hpre] at hi
    rw [hcommitted]
    exact h.committed p i hi
  · intro p i hi hc
    rw [hcount] at hi
    rw [hcommitted] at hc
    rw [hsync, hpre]
    exact h.sync p i hi hc
  · intro p i hi hc
    rw [hcount] at hi
    rw [hcommitted] at hc
    rw [hlwsync, hpre]
    exact h.lwsync p i hi hc

theorem waits_settled (evt : PAEvent) : waits (settled evt) = waits evt := rfl

theorem waits_core (evt : PAEvent) : waits evt.core = waits evt := rfl

theorem waits_withoutFences (evt : PAEvent) : waits (withoutFences evt) = waits evt := rfl

theorem Quiet.fchCount (h : Quiet tb tb') (p : Nat) :
    (tb'.thread p).fchCount = (tb.thread p).fchCount := by
  have hthread := congrArg Thread.fchCount (h.thread p)
  exact hthread

theorem Quiet.committedPrefix (h : Quiet tb tb') (p : Nat) :
    (tb'.thread p).committedPrefix = (tb.thread p).committedPrefix := by
  have hthread := congrArg Thread.committedPrefix (h.thread p)
  exact hthread

theorem PrefixInv.quiet (h : PrefixInv tb) (hq : Quiet tb tb') : PrefixInv tb' := by
  refine h.of_same hq.fchCount hq.committedPrefix fun p i => ?_
  rw [← waits_settled, hq.evt, waits_settled]

theorem PrefixInv.kept (h : PrefixInv tb) (hk : Kept PAEvent.core tb tb') : PrefixInv tb' := by
  refine h.of_same (fun p => by rw [hk.thread]) (fun p => by rw [hk.thread]) fun p i => ?_
  rw [← waits_core, hk.evt, waits_core]

/-- A new event is not committed. -/
theorem PrefixInv.enters {l s : Nat} {addrDeps dataDeps : VecSet Nat} {evt : PAEvent}
    (h : PrefixInv tb) (hs : Shape tb) (hf : Fresh tb proc l s addrDeps dataDeps evt)
    (he : Enters tb proc evt tb') : PrefixInv tb' := by
  obtain ⟨c, -, hself⟩ := he.self
  have hcount : ∀ p, (tb'.thread p).fchCount = if p = proc then (tb.thread p).fchCount + 1
      else (tb.thread p).fchCount := by
    intro p
    split_ifs with hp
    · rw [hp, hself]
    · rw [he.other p hp]
  have hpre : ∀ p, (tb'.thread p).committedPrefix = (tb.thread p).committedPrefix := by
    intro p
    by_cases hp : p = proc
    · rw [hp, hself]
    · rw [he.other p hp]
  have hnew : evt.committed = false := by
    rcases hf.committed with hnot | ⟨hstatus, hsame⟩
    · exact hnot
    · rw [hsame]
      exact hs.unfetched proc _ (Nat.le_refl _) hstatus
  -- a committed event was there before
  have hold : ∀ p i, i < (tb'.thread p).fchCount → (tb'.fchAt p i).committed = true →
      i < (tb.thread p).fchCount ∧ tb'.fchAt p i = tb.fchAt p i := by
    intro p i hi hc
    rw [hcount] at hi
    rw [he.evt] at hc ⊢
    by_cases hat : p = proc ∧ i = (tb.thread proc).fchCount
    · rw [if_pos hat, hnew] at hc
      cases hc
    · rw [if_neg hat]
      refine ⟨?_, rfl⟩
      by_cases hp : p = proc
      · subst hp
        rw [if_pos rfl] at hi
        have hne : i ≠ (tb.thread p).fchCount := fun heq => hat ⟨rfl, heq⟩
        omega
      · rwa [if_neg hp] at hi
  constructor
  · intro p
    have hle := h.le p
    rw [hpre, hcount]
    split_ifs <;> omega
  · intro p i hi
    have hle := h.le p
    rw [hpre] at hi
    have hat : ¬(p = proc ∧ i = (tb.thread proc).fchCount) := by
      rintro ⟨rfl, rfl⟩
      omega
    rw [he.evt, if_neg hat]
    exact h.committed p i hi
  · intro p i hi hc
    obtain ⟨hi', hsame⟩ := hold p i hi hc
    rw [hpre, hsame]
    exact h.sync p i hi' (hsame ▸ hc)
  · intro p i hi hc
    obtain ⟨hi', hsame⟩ := hold p i hi hc
    rw [hpre, hsame]
    exact h.lwsync p i hi' (hsame ▸ hc)

/-! ## Commits -/

theorem le_advance (q : PAEvent → Bool) (k : Nat) : k ≤ tb.advance p q k :=
  Nat.le_add_right _ _

/-- The events that are passed satisfy the predicate. -/
theorem advance_spec {q : PAEvent → Bool} (hle : k ≤ i) (hlt : i < tb.advance p q k) :
    q (tb.fchAt p i) = true := by
  unfold advance at hlt
  have hpre := List.takeWhile_prefix
    (l := (((tb.fch.getD p []).take (tb.thread p).fchCount).drop k)) q
  have hlt' : i - k < ((((tb.fch.getD p []).take (tb.thread p).fchCount).drop k).takeWhile
    q).length := by omega
  have hsat := List.mem_takeWhile_imp (List.getElem_mem hlt')
  have hlen := hpre.length_le
  rw [List.length_drop, List.length_take] at hlen
  rw [hpre.getElem hlt', List.getElem_drop, List.getElem_take] at hsat
  simp only [Nat.add_sub_cancel' hle] at hsat
  unfold fchAt
  rwa [List.getD_eq_getElem _ _ (by omega)]

theorem PrefixInv.updateCommittedPrefix (h : PrefixInv tb) :
    PrefixInv (tb.updateCommittedPrefix proc) := by
  have hthread : ∀ p, (tb.thread p).committedPrefix ≤
        ((tb.updateCommittedPrefix proc).thread p).committedPrefix ∧
      ((tb.updateCommittedPrefix proc).thread p).committedPrefix ≤ (tb.thread p).fchCount ∧
      ((tb.updateCommittedPrefix proc).thread p).fchCount = (tb.thread p).fchCount ∧
      ∀ i < ((tb.updateCommittedPrefix proc).thread p).committedPrefix,
        (tb.fchAt p i).committed = true := by
    intro p
    have hle := h.le p
    unfold TB.updateCommittedPrefix
    rw [thread_modifyThread]
    split_ifs with hp
    · rw [← hp.1]
      have hadvance : tb.advance p PAEvent.committed (tb.thread p).committedPrefix ≤ _ :=
        advance_le _ _
      refine ⟨le_advance _ _, by dsimp only; omega, rfl, fun i hi => ?_⟩
      rcases Nat.lt_or_ge i (tb.thread p).committedPrefix with hlt | hge
      · exact h.committed p i hlt
      · exact advance_spec hge hi
    · exact ⟨Nat.le_refl _, hle, rfl, h.committed p⟩
  constructor
  · intro p
    rw [(hthread p).2.2.1]
    exact (hthread p).2.1
  · exact fun p => (hthread p).2.2.2
  · intro p i hi hc
    rw [(hthread p).2.2.1] at hi
    have hsync := h.sync p i hi hc
    have hle := (hthread p).1
    exact hsync.trans (by omega)
  · intro p i hi hc
    rw [(hthread p).2.2.1] at hi
    have hlwsync := h.lwsync p i hi hc
    have hle := (hthread p).1
    exact hlwsync.trans (by omega)

/-- The event that is committed waits for no fence. -/
theorem PrefixInv.markCommitted (h : PrefixInv tb)
    (hsync : (tb.getEvt e).syncIdxBefore ≤ (tb.thread e.pid).committedPrefix)
    (hlwsync : (tb.getEvt e).lwsyncIdxBefore ≤ (tb.thread e.pid).committedPrefix) :
    PrefixInv (tb.markCommitted e) := by
  have hevt : ∀ p i, (tb.markCommitted e).fchAt p i =
      if p = e.pid ∧ i = e.idx - 1 ∧ e.idx - 1 < (tb.evtsOf e.pid).length then
        { tb.fchAt e.pid (e.idx - 1) with committed := true } else tb.fchAt p i :=
    fun p i => fchAt_modifyFch _ _ p i _
  constructor
  · exact h.le
  · intro p i hi
    rw [hevt]
    split_ifs
    · rfl
    · exact h.committed p i hi
  · intro p i hi hc
    rw [hevt] at hc ⊢
    split_ifs at hc ⊢ with hat
    · rw [hat.1]
      exact hsync
    · exact h.sync p i hi hc
  · intro p i hi hc
    rw [hevt] at hc ⊢
    split_ifs at hc ⊢ with hat
    · rw [hat.1]
      exact hlwsync
    · exact h.lwsync p i hi hc

theorem PrefixInv.committing (h : PrefixInv tb) (hc : Committing cfg tb e tb') :
    PrefixInv tb' := by
  obtain ⟨tb₁, tb₂, replay, values, execPrefix, hok, hcommit, -, rfl⟩ := hc
  have hcommittable := committable_true hok
  rcases commit_cases hcommit with ⟨tb₃, hnone, -⟩ | ⟨tb₃, tb₄, tb₅, -, hcommits, rfl⟩
  · cases hnone
  · have hkept := (kept_committable hok).core.trans hcommits.kept
    have hwaits : waits ((tb₅.detectRwConflicts cfg e).getEvt e) = waits (tb.getEvt e) := by
      unfold TB.getEvt
      rw [← waits_core, hkept.evt, waits_core]
    have hsync : ((tb₅.detectRwConflicts cfg e).getEvt e).syncIdxBefore =
        (tb.getEvt e).syncIdxBefore := congrArg (fun w => w.2.1) hwaits
    have hlwsync : ((tb₅.detectRwConflicts cfg e).getEvt e).lwsyncIdxBefore =
        (tb.getEvt e).lwsyncIdxBefore := congrArg (fun w => w.2.2) hwaits
    have hmarked : PrefixInv ((tb₅.detectRwConflicts cfg e).markCommitted e) := by
      refine (h.kept hkept).markCommitted ?_ ?_
      · rw [hsync, hkept.thread]
        exact hcommittable.sync
      · rw [hlwsync, hkept.thread]
        exact hcommittable.lwsync
    exact hmarked.updateCommittedPrefix.of_same (fun p => rfl) (fun p => rfl) fun p i => rfl

/-! ## Runs -/

theorem PrefixInv.of_start (h : ∀ p, tb.thread p = {}) : PrefixInv tb := by
  constructor
  · intro p
    rw [h]
  · intro p i hi
    rw [h] at hi
    exact absurd hi (Nat.not_lt_zero i)
  · intro p i hi
    rw [h] at hi
    exact absurd hi (Nat.not_lt_zero i)
  · intro p i hi
    rw [h] at hi
    exact absurd hi (Nat.not_lt_zero i)

theorem committedPrefix_fetchFence (type : FenceType) (p : Nat) :
    ((tb.fetchFence proc type).thread p).committedPrefix = (tb.thread p).committedPrefix := by
  have hmodify : ∀ (tb₀ : TB) (f : Thread → Thread), tb₀.threads = tb.threads →
      (∀ T, (f T).committedPrefix = T.committedPrefix) →
      ((tb₀.modifyThread proc f).thread p).committedPrefix = (tb.thread p).committedPrefix := by
    intro tb₀ f hthreads hf
    have hthread : tb₀.thread = tb.thread := by
      funext p
      unfold TB.thread
      rw [hthreads]
    rw [thread_modifyThread, hthread]
    split_ifs with hp
    · rw [hf, hp.1]
    · rfl
  cases type with
  | isync | eieio | lwsync | sync => exact hmodify _ _ rfl fun T => rfl

theorem PrefixInv.act (h : PrefixInv tb) (hsound : tb.Sound) (ha : tb.act cfg a = some tb') :
    PrefixInv tb' := by
  cases a with
  | spawn proc =>
    obtain ⟨-, -, hthread, hevts⟩ := spawn_same ha
    refine h.of_same (fun p => ?_) (fun p => ?_) fun p i => ?_
    · rw [hthread]
    · rw [hthread]
    · rw [fchAt_of_evtsOf hevts]
  | fetch proc l s addrDeps dataDeps =>
    obtain ⟨evt, hf, he⟩ := fetch_enters ha
    exact h.enters hsound.shape hf he
  | fetchFence proc type =>
    cases ha
    have hc : Calm withoutFences tb (tb.fetchFence proc type) := calm_fetchFence type
    refine h.of_same hc.fchCount (fun p => committedPrefix_fetchFence type p) fun p i => ?_
    rw [← waits_withoutFences, hc.evt, waits_withoutFences]
  | schedule =>
    obtain ⟨⟨s, tb₁⟩, hs, rfl⟩ := Option.map_eq_some_iff.mp ha
    rcases hsound.schedule hs with ⟨-, -, hkept⟩ | ⟨e, tb₀, -, hkept, hcommitting, -⟩
    · exact h.kept hkept
    · exact (h.kept hkept).committing hcommitting
  | _ => exact h.quiet (act_quiet rfl ha)

end TB

/-- The committed prefixes of each state of a run. -/
theorem Run.prefixInv {cfg : Config} {S : Session} (h : Run cfg S) : TB.PrefixInv S.tb := by
  induction h with
  | start => exact .of_start fun p => by cases p <;> rfl
  | act a hrun _ ha ih => exact ih.act hrun.sound ha
  | replay _ _ => exact .of_start TB.thread_clearData
  | reset hrun hr _ =>
    obtain ⟨tb₁, n, -, rfl⟩ := hrun.sound.reset hr
    exact .of_start fun p => by cases p <;> rfl

end ViEqui.Power
