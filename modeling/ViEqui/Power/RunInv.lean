import ViEqui.Power.Fetching

/-!
# What holds in every run

`Shape` is about the vectors of events and the counters of the threads.  Its main part is
that an event of an earlier computation that is not fetched yet is not committed.
`Indexed` says that the prefix, the branches and the memory hold no null event.
-/

namespace ViEqui.Power

open GetD

/-! ## Registering accesses -/

namespace PAEvent

/-- The event without what the registration of an address or of data changes. -/
def steady (evt : PAEvent) : PAEvent :=
  { evt with
    accesses := evt.accesses.map fun A => { type := .load, loadReq := A.loadReq }
    unknownAddrCount := 0
    unknownDataCount := 0
    accessTgts := ∅
    baccesses := [] }

theorem steady_foldl {α : Type} {f : PAEvent → α → PAEvent}
    (hf : ∀ evt a, (f evt a).steady = evt.steady) (l : List α) (evt : PAEvent) :
    (l.foldl f evt).steady = evt.steady := by
  induction l generalizing evt with
  | nil => rfl
  | cons a l ih => exact (ih _).trans (hf evt a)

theorem steady_registerByte (a : Nat) (evt : PAEvent) (i : Nat) :
    (registerByte a evt i).steady = evt.steady := by
  unfold registerByte
  dsimp only
  cases (evt.access a).type with
  | load =>
    dsimp only
    split_ifs <;> rfl
  | store =>
    dsimp only
    split
    · rfl
    · split_ifs <;> rfl

theorem map_loadReq_modify {f : Access → Access} (hf : ∀ A, (f A).loadReq = A.loadReq)
    (l : List Access) (a : Nat) :
    (l.modify a f).map (fun A => ({ type := .load, loadReq := A.loadReq } : Access)) =
      l.map fun A => { type := .load, loadReq := A.loadReq } := by
  apply map_modify_of_eq
  intro A
  rw [hf]

theorem steady_registerAddr (evt : PAEvent) (a : Nat) (addr : MRef) :
    (evt.registerAddr a addr).steady = evt.steady := by
  unfold registerAddr
  rw [steady_foldl (steady_registerByte a)]
  unfold steady
  dsimp only
  rw [map_loadReq_modify]
  exact fun A => rfl

theorem steady_registerData (evt : PAEvent) (a : Nat) (data : List UInt8) :
    (evt.registerData a data).steady = evt.steady := by
  have hdata : ({ evt with
      accesses := evt.accesses.modify a fun A => { A with data, dataKnown := true }
      unknownDataCount := evt.unknownDataCount - 1 } : PAEvent).steady = evt.steady := by
    unfold steady
    dsimp only
    rw [map_loadReq_modify]
    exact fun A => rfl
  unfold registerData
  dsimp only
  split_ifs
  · rw [steady_foldl fun evt i => by split_ifs <;> rfl]
    exact hdata
  · exact hdata

theorem hasLoadReq_of_steady {evt evt' : PAEvent} (h : evt'.steady = evt.steady) :
    evt'.hasLoadReq = evt.hasLoadReq := by
  have hsteady : ∀ evt : PAEvent, evt.steady.hasLoadReq = evt.hasLoadReq := by
    intro evt
    show ((evt.accesses.map _).take evt.loadCount).any _ = (evt.accesses.take evt.loadCount).any _
    rw [← List.map_take, List.any_map]
    rfl
  rw [← hsteady, h, hsteady]

/-- The parts of an event that tell whether it is committed, and whether it can be taken
over by the next computation. -/
def status (evt : PAEvent) : Bool × EventFilledStatus := (evt.committed, evt.filledStatus)

end PAEvent

namespace TB

variable {cfg : Config} {tb tb' : TB} {iid : IID} {p i q j proc : Nat}

/-- The threads have fetched the same events. -/
structure SameThreads (tb tb' : TB) : Prop where
  threads : tb'.threads.length = tb.threads.length
  fchCount : ∀ p, (tb'.thread p).fchCount = (tb.thread p).fchCount
  addrKnown : ∀ p, (tb'.thread p).addrKnownPrefix ≤
    max (tb.thread p).addrKnownPrefix (tb.thread p).fchCount

/-- The vectors of events, and the events that are not fetched yet. -/
structure Shape (tb : TB) : Prop where
  pos : 0 < tb.threads.length
  fch : tb.threads.length ≤ tb.fch.length
  fetched : ∀ p, (tb.thread p).fchCount ≤ (tb.evtsOf p).length
  addrKnown : ∀ p, (tb.thread p).addrKnownPrefix ≤ (tb.thread p).fchCount
  unfetched : ∀ p i, (tb.thread p).fchCount ≤ i → (tb.fchAt p i).filledStatus = .complete →
    (tb.fchAt p i).committed = false

/-- There is no null event in the prefix, in the memory and in the branches. -/
structure Indexed (tb : TB) : Prop where
  execPrefix : ∀ e ∈ tb.execPrefix, 0 < e.idx
  loads : ∀ p, ∀ L ∈ (tb.mem p).loads, ∀ e ∈ L.vec, 0 < e.idx
  branches : ∀ p i, ∀ B ∈ (tb.fchAt p i).newBranches, ∀ P ∈ B.branch, 0 < P.iid.idx

theorem Shape.of_same (h : Shape tb) (ht : SameThreads tb tb')
    (he : SameEvts PAEvent.status tb tb') : Shape tb' where
  pos := by
    rw [ht.threads]
    exact h.pos
  fch := by
    rw [ht.threads, he.fch]
    exact h.fch
  fetched p := by
    rw [ht.fchCount, he.length]
    exact h.fetched p
  addrKnown p := by
    have hle := ht.addrKnown p
    have hold := h.addrKnown p
    rw [ht.fchCount]
    omega
  unfetched p i hi hs := by
    have hstatus := he.evt p i
    rw [ht.fchCount] at hi
    unfold PAEvent.status at hstatus
    rw [Prod.mk.injEq] at hstatus
    rw [hstatus.1]
    exact h.unfetched p i hi (hstatus.2 ▸ hs)

theorem Indexed.of_same (h : Indexed tb) (hpre : tb'.execPrefix = tb.execPrefix)
    (hmem : tb'.mem = tb.mem) (he : SameEvts PAEvent.newBranches tb tb') : Indexed tb' where
  execPrefix := by
    rw [hpre]
    exact h.execPrefix
  loads := by
    rw [hmem]
    exact h.loads
  branches p i := by
    rw [he.evt]
    exact h.branches p i

/-! ## Calls that fetch nothing -/

namespace SameThreads

theorem of_threads (h : tb'.threads = tb.threads) : SameThreads tb tb' := by
  have hthread : tb'.thread = tb.thread := by
    funext p
    rw [thread, h]
    rfl
  refine ⟨congrArg List.length h, fun p => ?_, fun p => ?_⟩
  · rw [hthread]
  · rw [hthread]
    exact Nat.le_max_left _ _

theorem modifyThread {f : Thread → Thread} (hf : (f (tb.thread proc)).fchCount =
      (tb.thread proc).fchCount)
    (ha : (f (tb.thread proc)).addrKnownPrefix ≤
      max (tb.thread proc).addrKnownPrefix (tb.thread proc).fchCount) :
    SameThreads tb (tb.modifyThread proc f) where
  threads := List.length_modify _ _ _
  fchCount p := by
    rw [thread_modifyThread]
    split_ifs with h
    · rw [hf, h.1]
    · rfl
  addrKnown p := by
    rw [thread_modifyThread]
    split_ifs with h
    · rw [h.1]
      exact ha
    · exact Nat.le_max_left _ _

theorem updateAddrKnownPrefix : SameThreads tb (tb.updateAddrKnownPrefix proc) :=
  .modifyThread rfl (advance_le _ _)

end SameThreads

/-- A call that changes neither what is fetched, nor the prefix and the memory, and that
leaves the part `π` of the events. -/
structure Calm {β : Type} (π : PAEvent → β) (tb tb' : TB) : Prop
    extends SameEvts π tb tb', SameThreads tb tb' where
  execPrefix : tb'.execPrefix = tb.execPrefix
  schedCount : tb'.schedCount = tb.schedCount
  mem : tb'.mem = tb.mem

theorem Calm.shape {β : Type} {π : PAEvent → β} (g : β → Bool × EventFilledStatus)
    (hg : ∀ evt, g (π evt) = evt.status) (hc : Calm π tb tb') (h : Shape tb) : Shape tb' := by
  have he : SameEvts PAEvent.status tb tb' := by
    have hmap := hc.toSameEvts.map g
    simp only [hg] at hmap
    exact hmap
  exact h.of_same hc.toSameThreads he

theorem Calm.indexed {β : Type} {π : PAEvent → β} (g : β → List Branch)
    (hg : ∀ evt, g (π evt) = evt.newBranches) (hc : Calm π tb tb') (h : Indexed tb) :
    Indexed tb' := by
  have he : SameEvts PAEvent.newBranches tb tb' := by
    have hmap := hc.toSameEvts.map g
    simp only [hg] at hmap
    exact hmap
  exact h.of_same hc.execPrefix hc.mem he

theorem calm_registerAddr {a : Nat} {addr : MRef} (h : tb.registerAddr iid a addr = some tb') :
    Calm PAEvent.steady tb tb' := by
  unfold registerAddr at h
  dsimp only at h
  split_ifs at h
  cases h
  have he : SameEvts PAEvent.steady tb
      (tb.modifyEvt iid fun evt => evt.registerAddr a addr) :=
    .modifyEvt fun evt => evt.steady_registerAddr a addr
  have ht : SameThreads (tb.modifyEvt iid fun evt => evt.registerAddr a addr)
      ((tb.modifyEvt iid fun evt => evt.registerAddr a addr).updateAddrKnownPrefix iid.pid) :=
    .updateAddrKnownPrefix
  exact ⟨⟨he.fch, he.length, he.evt⟩, ⟨ht.threads, ht.fchCount, ht.addrKnown⟩, rfl, rfl, rfl⟩

theorem calm_registerData {a : Nat} {data : List UInt8}
    (h : tb.registerData iid a data = some tb') : Calm PAEvent.steady tb tb' := by
  unfold registerData at h
  dsimp only at h
  split_ifs at h
  cases h
  exact ⟨.modifyEvt fun evt => evt.steady_registerData a data, .of_threads rfl, rfl, rfl, rfl⟩

/-- The event without its accesses. -/
def withoutAccesses (evt : PAEvent) : PAEvent := { evt with accesses := [] }

theorem calm_registerLoadRequirement {a : Nat} {f : List UInt8 → Bool}
    (h : tb.registerLoadRequirement iid a f = some tb') : Calm withoutAccesses tb tb' := by
  unfold registerLoadRequirement at h
  obtain ⟨-, h⟩ := Option.ite_none_right_eq_some.mp h
  cases h
  have he : SameEvts withoutAccesses tb (tb.modifyEvt iid fun evt =>
      { evt with accesses := evt.accesses.modify a fun A => { A with loadReq := some f } }) :=
    .modifyEvt fun evt => rfl
  exact ⟨⟨he.fch, he.length, he.evt⟩, .of_threads rfl, rfl, rfl, rfl⟩

theorem calm_fetchCtrl {deps : VecSet Nat} (h : tb.fetchCtrl proc deps = some tb') :
    Calm id tb tb' := by
  unfold fetchCtrl at h
  split_ifs at h
  cases h
  exact ⟨.of_fch rfl, .modifyThread rfl (Nat.le_max_left _ _), rfl, rfl, rfl⟩

/-- The event without the fences behind it. -/
def withoutFences (evt : PAEvent) : PAEvent :=
  { evt with eieioIdxAfter := -1, lwsyncIdxAfter := -1, syncIdxAfter := -1 }

theorem evtsOf_modifySince (proc : Nat) (last : Int) (f : PAEvent → PAEvent) (q : Nat) :
    (tb.modifySince proc last f).evtsOf q = if q = proc then
      (tb.evtsOf q).mapIdx fun i evt =>
        if max 0 last ≤ i ∧ i < (tb.thread proc).fchCount then f evt else evt
      else tb.evtsOf q := by
  show (tb.fch.modify proc _).getD q [] = _
  rw [getD_modify]
  by_cases hq : q = proc
  · subst hq
    rw [if_pos rfl]
    split_ifs with h
    · rfl
    · have hnil : tb.evtsOf q = [] := List.getD_eq_default _ _ (by omega)
      rw [hnil]
      exact hnil
  · rw [if_neg hq, if_neg fun h => hq h.1]
    rfl

theorem fchAt_modifySince (proc : Nat) (last : Int) (f : PAEvent → PAEvent) (q i : Nat) :
    (tb.modifySince proc last f).fchAt q i = if q = proc ∧ max 0 last ≤ i ∧
      i < (tb.thread proc).fchCount ∧ i < (tb.evtsOf proc).length then f (tb.fchAt q i)
    else tb.fchAt q i := by
  show ((tb.modifySince proc last f).evtsOf q).getD i {} = _
  rw [evtsOf_modifySince]
  by_cases hq : q = proc
  · subst hq
    rw [if_pos rfl, List.getD_eq_getElem?_getD, List.getElem?_mapIdx]
    show _ = if _ then f ((tb.evtsOf q).getD i {}) else (tb.evtsOf q).getD i {}
    by_cases hlt : i < (tb.evtsOf q).length
    · rw [List.getElem?_eq_getElem hlt, List.getD_eq_getElem _ _ hlt]
      show (if max 0 last ≤ i ∧ i < (tb.thread q).fchCount then f _ else _) = _
      split_ifs with h h' h'
      · rfl
      · exact absurd ⟨rfl, h.1, h.2, hlt⟩ h'
      · exact absurd ⟨h'.2.1, h'.2.2.1⟩ h
      · rfl
    · rw [List.getElem?_eq_none (by omega), if_neg fun h => hlt h.2.2.2,
        List.getD_eq_default _ _ (by omega)]
      rfl
  · rw [if_neg hq, if_neg fun h => hq h.1]
    rfl

theorem sameEvts_modifySince {β : Type} {π : PAEvent → β} {f : PAEvent → PAEvent}
    (hf : ∀ evt, π (f evt) = π evt) (last : Int) :
    SameEvts π tb (tb.modifySince proc last f) where
  fch := List.length_modify _ _ _
  length q := by
    rw [evtsOf_modifySince]
    split_ifs
    · exact List.length_mapIdx
    · rfl
  evt q i := by
    rw [fchAt_modifySince]
    split_ifs
    · rw [hf]
    · rfl

theorem calm_fence {f : PAEvent → PAEvent} {g : Thread → Thread} {last : Int}
    (hf : ∀ evt, withoutFences (f evt) = withoutFences evt)
    (hg : ∀ T, (g T).fchCount = T.fchCount ∧ (g T).addrKnownPrefix = T.addrKnownPrefix) :
    Calm withoutFences tb ((tb.modifySince proc last f).modifyThread proc g) := by
  have he : SameEvts withoutFences tb (tb.modifySince proc last f) := sameEvts_modifySince hf last
  have ht : SameThreads (tb.modifySince proc last f)
      ((tb.modifySince proc last f).modifyThread proc g) :=
    .modifyThread (hg _).1 (by rw [(hg _).2]; exact Nat.le_max_left _ _)
  exact ⟨⟨he.fch, he.length, he.evt⟩, ⟨ht.threads, ht.fchCount, ht.addrKnown⟩, rfl, rfl, rfl⟩

theorem calm_fetchFence (type : FenceType) : Calm withoutFences tb (tb.fetchFence proc type) := by
  cases type with
  | isync => exact ⟨.of_fch rfl, .modifyThread rfl (Nat.le_max_left _ _), rfl, rfl, rfl⟩
  | eieio | lwsync | sync => exact calm_fence (fun _ => rfl) fun _ => ⟨rfl, rfl⟩

end TB

end ViEqui.Power
