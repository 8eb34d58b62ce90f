import ViEqui.Power.Frame

/-!
# Runs of the trace builder

A run is a sequence of calls of the interpreter and of `schedule`, and of `replay` and
`reset` at any point.  `Allowed` is what the calls promise.  A `Session` is a
state of the builder with what a run has seen: the fences that were fetched in the current
computation, and the events that were pending when `replay` was called.
-/

namespace ViEqui.Power

open GetD

/-- A call within a computation. -/
inductive Action where
  | spawn (proc : Nat)
  | abort
  | fetch (proc loadCount storeCount : Nat) (addrDeps dataDeps : VecSet Nat)
  | registerAddr (iid : IID) (a : Nat) (addr : MRef)
  | registerData (iid : IID) (a : Nat) (data : List UInt8)
  | registerLoadRequirement (iid : IID) (a : Nat) (f : List UInt8 → Bool)
  | fetchCtrl (proc : Nat) (deps : VecSet Nat)
  | fetchFence (proc : Nat) (type : FenceType)
  | schedule

/-- The event is neither committed nor blocking. -/
def PAEvent.isPending (evt : PAEvent) : Bool := !evt.committed && !evt.hasLoadReq

namespace TB

/-- The call; `none` where an assertion fails. -/
def act (cfg : Config) (tb : TB) : Action → Option TB
  | .spawn proc => tb.spawn proc
  | .abort => some tb.abort
  | .fetch proc loadCount storeCount addrDeps dataDeps =>
    tb.fetch proc loadCount storeCount addrDeps dataDeps
  | .registerAddr iid a addr => tb.registerAddr iid a addr
  | .registerData iid a data => tb.registerData iid a data
  | .registerLoadRequirement iid a f => tb.registerLoadRequirement iid a f
  | .fetchCtrl proc deps => tb.fetchCtrl proc deps
  | .fetchFence proc type => some (tb.fetchFence proc type)
  | .schedule => (tb.schedule cfg).map Prod.snd

/-- What the interpreter promises: dependencies are on fetched events of the thread, and a
requirement on loaded values is registered for a fetched event that is not committed. -/
def Allowed (tb : TB) : Action → Prop
  | .fetch proc _ _ addrDeps dataDeps =>
    ∀ i ∈ addrDeps.vec ++ dataDeps.vec, 0 < i ∧ i ≤ (tb.thread proc).fchCount
  | .registerLoadRequirement iid _ _ => iid ∈ tb.fetched ∧ (tb.getEvt iid).committed = false
  | .fetchCtrl proc deps => ∀ i ∈ deps.vec, 0 < i ∧ i ≤ (tb.thread proc).fchCount
  | .fetchFence proc _ => proc < tb.threads.length
  | _ => True

/-- The events that `uncommitted_nonblocking_count` is about. -/
def pending (tb : TB) : List IID :=
  tb.fetched.filter fun e => (tb.getEvt e).isPending

/-- `sleepset_is_empty`. -/
def sleepsetIsEmpty (tb : TB) : Bool := tb.uncommittedNonblockingCount = 0

end TB

/-- A fence of a thread, behind the first `pos` events. -/
structure Fence where
  proc : Nat
  type : FenceType
  pos : Nat

/-- A state of the builder within a run. -/
structure Session where
  tb : TB := {}
  fences : List Fence := []
  carried : Nat := 0

/-- The fences after a call. -/
def Session.fencesAfter (S : Session) : Action → List Fence
  | .fetchFence proc type => ⟨proc, type, (S.tb.thread proc).fchCount⟩ :: S.fences
  | _ => S.fences

/-- The sessions that a run leads to. -/
inductive Run (cfg : Config) : Session → Prop where
  | start : Run cfg {}
  | act {S : Session} {tb' : TB} (a : Action) : Run cfg S → S.tb.Allowed a →
      S.tb.act cfg a = some tb' → Run cfg { S with tb := tb', fences := S.fencesAfter a }
  | replay {S : Session} : Run cfg S →
      Run cfg { tb := S.tb.replay, carried := S.carried + S.tb.pending.length }
  | reset {S : Session} {tb' : TB} : Run cfg S → S.tb.reset = some (some tb') →
      Run cfg { tb := tb' }

namespace TB

variable {cfg : Config} {tb tb' : TB} {iid : IID} {p i q j proc : Nat}

/-! ## Threads -/

theorem thread_modifyThread (p q : Nat) (f : Thread → Thread) :
    (tb.modifyThread p f).thread q =
      if q = p ∧ p < tb.threads.length then f (tb.thread p) else tb.thread q :=
  getD_modify _ _

theorem lt_threads_of_fchCount (h : i < (tb.thread p).fchCount) : p < tb.threads.length := by
  by_contra hge
  rw [thread, List.getD_eq_default _ _ (by omega)] at h
  exact absurd h (Nat.not_lt_zero i)

theorem advance_le (q : PAEvent → Bool) (k : Nat) :
    tb.advance p q k ≤ max k (tb.thread p).fchCount := by
  unfold advance
  have htake := List.length_take_le (tb.thread p).fchCount (tb.fch.getD p [])
  have hdrop := List.length_drop
    (i := k) (l := (tb.fch.getD p []).take (tb.thread p).fchCount)
  have hwhile := (List.takeWhile_sublist (l := ((tb.fch.getD p []).take
    (tb.thread p).fchCount).drop k) q).length_le
  omega

end TB

end ViEqui.Power
