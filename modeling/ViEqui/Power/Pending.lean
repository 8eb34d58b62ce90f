import ViEqui.Power.RunSound

/-!
# The count of pending events

`uncommitted_nonblocking_count` is the number of pending events, and in addition that of
the events that were pending when `replay` was called since the last `reset`: `reset` clears
the counter, and `replay` does not.
-/

namespace ViEqui.Power

open GetD

namespace TB

variable {cfg : Config} {tb tb' : TB} {iid e : IID} {p i q j proc : Nat}

/-! ## The number of pending events -/

/-- The number of fetched events that are pending. -/
theorem length_pending : tb.pending.length = tb.fetched.countP fun e => (tb.getEvt e).isPending :=
  List.countP_eq_length_filter.symm

theorem perm_fetched (h : ∀ e, e ∈ tb'.fetched ↔ e ∈ tb.fetched) :
    tb'.fetched.Perm tb.fetched :=
  (List.perm_ext_iff_of_nodup (nodup_fetched tb') (nodup_fetched tb)).mpr h

theorem length_pending_same (hf : ∀ e, e ∈ tb'.fetched ↔ e ∈ tb.fetched)
    (he : ∀ e ∈ tb.fetched, (tb'.getEvt e).isPending = (tb.getEvt e).isPending) :
    tb'.pending.length = tb.pending.length := by
  rw [length_pending, length_pending, (perm_fetched hf).countP_eq]
  exact List.countP_congr fun e hmem => by rw [he e hmem]

/-- One event is no longer pending. -/
theorem length_pending_remove (hf : ∀ e, e ∈ tb'.fetched ↔ e ∈ tb.fetched)
    (hmem : iid ∈ tb.fetched) (hold : (tb.getEvt iid).isPending = true)
    (hnew : (tb'.getEvt iid).isPending = false)
    (he : ∀ e ∈ tb.fetched, e ≠ iid → (tb'.getEvt e).isPending = (tb.getEvt e).isPending) :
    tb.pending.length = tb'.pending.length + 1 := by
  have hperm := List.perm_cons_erase hmem
  rw [length_pending, length_pending, (perm_fetched hf).countP_eq, hperm.countP_eq,
    hperm.countP_eq, List.countP_cons_of_pos (p := fun e => (tb.getEvt e).isPending) hold,
    List.countP_cons_of_neg (p := fun e => (tb'.getEvt e).isPending)
      (by rw [hnew]; exact Bool.false_ne_true)]
  congr 1
  refine List.countP_congr fun e hmem' => ?_
  have hne := (nodup_fetched tb).mem_erase_iff.mp hmem'
  rw [he e hne.2 hne.1]

theorem mem_fetched_same (h : SameThreads tb tb') (e : IID) :
    e ∈ tb'.fetched ↔ e ∈ tb.fetched := by
  rw [mem_fetched, mem_fetched, h.threads, h.fchCount]

/-- A new event is pending. -/
theorem length_pending_enters {evt : PAEvent} (he : Enters tb proc evt tb')
    (hevt : evt.isPending = true) : tb'.pending.length = tb.pending.length + 1 := by
  obtain ⟨k, -, hself⟩ := he.self
  have hfetched : tb'.fetched.Perm (⟨proc, (tb.thread proc).fchCount + 1⟩ :: tb.fetched) := by
    refine (List.perm_ext_iff_of_nodup (nodup_fetched tb')
      (List.nodup_cons.mpr ⟨fun hmem => ?_, nodup_fetched tb⟩)).mpr fun e => ?_
    · have hle := (mem_fetched.mp hmem).2.2
      dsimp only at hle
      omega
    · rw [List.mem_cons, mem_fetched, mem_fetched, he.threads]
      obtain ⟨p, i⟩ := e
      rw [IID.mk.injEq]
      dsimp only
      by_cases hp : p = proc
      · subst hp
        rw [hself]
        dsimp only
        have hlt := he.lt
        omega
      · rw [he.other p hp]
        omega
  have hcount : ∀ e ∈ tb.fetched, (tb'.getEvt e).isPending = (tb.getEvt e).isPending := by
    intro e hmem
    have hle := mem_fetched.mp hmem
    rw [getEvt, he.evt, if_neg]
    · rfl
    · rintro ⟨hp, hi⟩
      rw [hp] at hle
      omega
  have hnew : (tb'.getEvt ⟨proc, (tb.thread proc).fchCount + 1⟩).isPending = true := by
    rw [getEvt, he.evt, if_pos ⟨rfl, Nat.add_sub_cancel _ _⟩]
    exact hevt
  rw [length_pending, length_pending, hfetched.countP_eq,
    List.countP_cons_of_pos (p := fun e => (tb'.getEvt e).isPending) hnew]
  congr 1
  exact List.countP_congr fun e hmem => by rw [hcount e hmem]

/-! ## What the steps do to the number -/

theorem isPending_of_core {evt evt' : PAEvent} (h : evt'.core = evt.core) :
    evt'.isPending = evt.isPending := by
  have hpart : evt'.core.isPending = evt.core.isPending := congrArg PAEvent.isPending h
  exact hpart

theorem length_pending_kept (h : Kept PAEvent.core tb tb') :
    tb'.pending.length = tb.pending.length :=
  length_pending_same (mem_fetched_same (.of_threads h.threads))
    fun e _ => isPending_of_core (h.evt e.pid (e.idx - 1))

theorem isPending_of_steady {evt evt' : PAEvent} (h : evt'.steady = evt.steady) :
    evt'.isPending = evt.isPending := by
  have hpart : evt'.steady.committed = evt.steady.committed := congrArg PAEvent.committed h
  have hcommitted : evt'.committed = evt.committed := hpart
  rw [PAEvent.isPending, hcommitted, PAEvent.hasLoadReq_of_steady h]
  rfl

theorem length_pending_calm {β : Type} {π : PAEvent → β} (h : Calm π tb tb')
    (hπ : ∀ evt evt' : PAEvent, π evt' = π evt → evt'.isPending = evt.isPending) :
    tb'.pending.length = tb.pending.length :=
  length_pending_same (mem_fetched_same h.toSameThreads)
    fun e _ => hπ _ _ (h.evt e.pid (e.idx - 1))

theorem length_pending_spawn (h : tb.spawn proc = some tb') :
    tb'.pending.length = tb.pending.length := by
  obtain ⟨hthreads, -, hthread, hevts⟩ := spawn_same h
  refine length_pending_same (fun e => ?_) fun e _ => ?_
  · rw [mem_fetched, mem_fetched, hthreads, hthread]
    constructor
    · intro he
      have hlt : e.idx - 1 < (tb.thread e.pid).fchCount := by omega
      exact ⟨lt_threads_of_fchCount hlt, he.2⟩
    · intro he
      exact ⟨by omega, he.2⟩
  · rw [getEvt, fchAt_of_evtsOf hevts]
    rfl

/-- The count after a commit. -/
theorem count_marks (h : Marks tb e tb') (he : e ∈ tb.fetched)
    (hc : (tb.getEvt e).committed = false) {k : Int}
    (hk : tb.uncommittedNonblockingCount = tb.pending.length + k) :
    tb'.uncommittedNonblockingCount = tb'.pending.length + k := by
  have hpos := (mem_fetched.mp he).2.1
  have hfetched : ∀ x, x ∈ tb'.fetched ↔ x ∈ tb.fetched := by
    intro x
    obtain ⟨n, hn⟩ := h.thread x.pid
    rw [mem_fetched, mem_fetched, h.threads, hn]
  have hother : ∀ x ∈ tb.fetched, x ≠ e → (tb'.getEvt x).isPending = (tb.getEvt x).isPending := by
    intro x hx hne
    have hxpos := (mem_fetched.mp hx).2.1
    apply isPending_of_core
    show (tb'.fchAt x.pid (x.idx - 1)).core = _
    rw [h.evt, if_neg]
    · rfl
    · rintro ⟨hp, hi⟩
      obtain ⟨p, i⟩ := x
      obtain ⟨q, j⟩ := e
      apply hne
      rw [IID.mk.injEq]
      dsimp only at hp hi hpos hxpos
      omega
  have hself : (tb'.getEvt e).isPending = false := by
    have hcore : (tb'.getEvt e).core = { (tb.getEvt e).core with committed := true } := by
      show (tb'.fchAt e.pid (e.idx - 1)).core = _
      rw [h.evt, if_pos ⟨rfl, rfl⟩]
      rfl
    have hpart : (tb'.getEvt e).core.committed = true := congrArg PAEvent.committed hcore
    have hcommitted : (tb'.getEvt e).committed = true := hpart
    rw [PAEvent.isPending, hcommitted]
    rfl
  rw [h.count]
  by_cases hreq : (tb.getEvt e).hasLoadReq = true
  · have hold : (tb.getEvt e).isPending = false := by
      rw [PAEvent.isPending, hreq, hc]
      rfl
    rw [if_pos hreq, hk, length_pending_same hfetched fun x hx => ?_]
    by_cases hxe : x = e
    · rw [hxe, hself, hold]
    · exact hother x hx hxe
  · have hold : (tb.getEvt e).isPending = true := by
      rw [PAEvent.isPending, (Bool.not_eq_true _).mp hreq, hc]
      rfl
    have hremove := length_pending_remove hfetched he hold hself hother
    rw [if_neg hreq, hk, hremove]
    omega

/-! ## The number of accesses -/

/-- The number of loads, and of all accesses. -/
def size (evt : PAEvent) : Nat × Nat := (evt.loadCount, evt.accesses.length)

/-- The fetched events have their loads among their accesses. -/
def Sized (tb : TB) : Prop :=
  ∀ p i, i < (tb.thread p).fchCount → (size (tb.fchAt p i)).1 ≤ (size (tb.fchAt p i)).2

theorem Sized.of_same (h : Sized tb) (ht : SameThreads tb tb') (he : SameEvts size tb tb') :
    Sized tb' := by
  intro p i hi
  rw [ht.fchCount] at hi
  rw [he.evt]
  exact h p i hi

theorem size_of_steady {evt evt' : PAEvent} (h : evt'.steady = evt.steady) :
    size evt' = size evt := by
  have hload : evt'.steady.loadCount = evt.steady.loadCount := congrArg PAEvent.loadCount h
  have haccesses : evt'.steady.accesses.length = evt.steady.accesses.length :=
    congrArg (fun evt => evt.accesses.length) h
  have hlen : ∀ evt : PAEvent, evt.steady.accesses.length = evt.accesses.length :=
    fun evt => List.length_map _
  rw [hlen, hlen] at haccesses
  exact Prod.ext hload haccesses

theorem Sized.steady (h : Sized tb) (hc : Calm PAEvent.steady tb tb') : Sized tb' :=
  h.of_same hc.toSameThreads
    ⟨hc.fch, hc.length, fun p i => size_of_steady (hc.evt p i)⟩

theorem sameEvts_registerLoadRequirement {a : Nat} {f : List UInt8 → Bool}
    (h : tb.registerLoadRequirement iid a f = some tb') : SameEvts size tb tb' := by
  unfold registerLoadRequirement at h
  obtain ⟨-, h⟩ := Option.ite_none_right_eq_some.mp h
  cases h
  have he : SameEvts size tb (tb.modifyEvt iid fun evt =>
      { evt with accesses := evt.accesses.modify a fun A => { A with loadReq := some f } }) :=
    .modifyEvt fun evt => congrArg (Prod.mk evt.loadCount) (List.length_modify _ _ _)
  exact ⟨he.fch, he.length, he.evt⟩

theorem Sized.enters {l s : Nat} {addrDeps dataDeps : VecSet Nat} {evt : PAEvent} (h : Sized tb)
    (hf : Fresh tb proc l s addrDeps dataDeps evt) (he : Enters tb proc evt tb') :
    Sized tb' := by
  obtain ⟨k, -, hself⟩ := he.self
  intro p i hi
  rw [he.evt]
  split_ifs with hpi
  · show evt.loadCount ≤ evt.accesses.length
    have hlen : (tb.newEvent proc l s addrDeps dataDeps).accesses.length = l + s := by
      show (List.replicate l _ ++ List.replicate s _).length = l + s
      rw [List.length_append, List.length_replicate, List.length_replicate]
    rw [hf.loadCount, hf.accesses, hlen]
    exact Nat.le_add_right l s
  · by_cases hp : p = proc
    · subst hp
      rw [hself] at hi
      dsimp only at hi
      exact h p i (by omega)
    · rw [he.other p hp] at hi
      exact h p i hi

theorem Sized.schedule {s : Scheduled} (h : Sized tb) (hsound : Sound tb)
    (hs : tb.schedule cfg = some (s, tb')) : Sized tb' := by
  rcases hsound.schedule hs with ⟨-, -, hkept⟩ | ⟨e, tb₀, -, hkept, -, -, -, hmarks, -⟩
  · exact h.of_same (.of_threads hkept.threads) (hkept.toSameEvts.map size)
  · have h₀ : Sized tb₀ := h.of_same (.of_threads hkept.threads) (hkept.toSameEvts.map size)
    intro p i hi
    obtain ⟨n, hn⟩ := hmarks.thread p
    rw [hn] at hi
    have hcore := congrArg size (hmarks.evt p i)
    have hsize : size (tb'.fchAt p i) = size (tb₀.fchAt p i) := by
      refine Eq.trans hcore ?_
      split_ifs <;> rfl
    rw [hsize]
    exact h₀ p i hi

theorem Sized.act {a : Action} (h : Sized tb) (hsound : Sound tb)
    (ha : tb.act cfg a = some tb') : Sized tb' := by
  cases a with
  | spawn proc =>
    obtain ⟨-, -, hthread, hevts⟩ := spawn_same ha
    intro p i hi
    rw [hthread] at hi
    rw [fchAt_of_evtsOf hevts]
    exact h p i hi
  | abort =>
    cases ha
    exact h
  | fetch proc l s addrDeps dataDeps =>
    obtain ⟨evt, hf, he⟩ := fetch_enters ha
    exact h.enters hf he
  | registerAddr iid a addr => exact h.steady (calm_registerAddr ha)
  | registerData iid a data => exact h.steady (calm_registerData ha)
  | registerLoadRequirement iid a f =>
    exact h.of_same (calm_registerLoadRequirement ha).toSameThreads
      (sameEvts_registerLoadRequirement ha)
  | fetchCtrl proc deps =>
    have hc := calm_fetchCtrl ha
    exact h.of_same hc.toSameThreads (hc.toSameEvts.map size)
  | fetchFence proc type =>
    cases ha
    have hc : Calm withoutFences tb (tb.fetchFence proc type) := calm_fetchFence type
    exact h.of_same hc.toSameThreads (hc.toSameEvts.map size)
  | schedule =>
    obtain ⟨⟨s, tb₁⟩, hs, rfl⟩ := Option.map_eq_some_iff.mp ha
    exact h.schedule hsound hs

end TB

theorem Run.sized {cfg : Config} {S : Session} (h : Run cfg S) : S.tb.Sized := by
  have hempty : ∀ tb : TB, tb.threads = [{}] → tb.Sized := by
    intro tb hthreads p i hi
    rw [TB.thread, hthreads] at hi
    cases p <;> exact absurd hi (Nat.not_lt_zero i)
  induction h with
  | start => exact hempty _ rfl
  | act a hrun _ ha ih => exact ih.act hrun.sound ha
  | replay _ ih => exact hempty _ rfl
  | reset hrun hr ih =>
    obtain ⟨tb₁, n, -, rfl⟩ := hrun.sound.reset hr
    exact hempty _ rfl

/-! ## The count in a run -/

namespace TB

variable {cfg : Config} {tb tb' : TB} {k : Int}

/-- The count, where `k` more events are counted than are pending. -/
def Counts (tb : TB) (k : Int) : Prop := tb.uncommittedNonblockingCount = tb.pending.length + k

/-- A requirement is registered for one of the loads. -/
theorem hasLoadReq_modify {evt : PAEvent} {a : Nat} {f : List UInt8 → Bool}
    (ha : a < evt.loadCount) (hsize : evt.loadCount ≤ evt.accesses.length) :
    ({ evt with
      accesses := evt.accesses.modify a fun A => { A with loadReq := some f } } :
      PAEvent).hasLoadReq = true := by
  show ((evt.accesses.modify a _).take evt.loadCount).any _ = true
  rw [List.any_eq_true]
  have hlen : a < (evt.accesses.modify a fun A => { A with loadReq := some f }).length := by
    rw [List.length_modify]
    omega
  refine ⟨_, List.mem_take_iff_getElem.mpr ⟨a, by omega, rfl⟩, ?_⟩
  rw [List.getElem_modify_eq]
  rfl

theorem Counts.registerLoadRequirement {iid : IID} {a : Nat} {f : List UInt8 → Bool}
    (h : tb.Counts k) (hsound : tb.Sound) (hsized : tb.Sized) (hfetched : iid ∈ tb.fetched)
    (hcommitted : (tb.getEvt iid).committed = false)
    (hr : tb.registerLoadRequirement iid a f = some tb') : tb'.Counts k := by
  have hcalm := (calm_registerLoadRequirement hr).toSameThreads
  have hpos := mem_fetched.mp hfetched
  unfold TB.registerLoadRequirement at hr
  obtain ⟨⟨ha, -⟩, hr⟩ := Option.ite_none_right_eq_some.mp hr
  have hget : ∀ e, tb'.getEvt e = if e.pid = iid.pid ∧ e.idx - 1 = iid.idx - 1 ∧
      iid.idx - 1 < (tb.evtsOf iid.pid).length then
      { tb.getEvt iid with accesses :=
        (tb.getEvt iid).accesses.modify a fun A => { A with loadReq := some f } }
      else tb.getEvt e := by
    cases hr
    exact fun e => fchAt_modifyFch iid.pid (iid.idx - 1) e.pid (e.idx - 1) _
  have hcount : tb'.uncommittedNonblockingCount = if (tb.getEvt iid).hasLoadReq then
      tb.uncommittedNonblockingCount else tb.uncommittedNonblockingCount - 1 := by
    cases hr
    rfl
  have hother : ∀ e ∈ tb.fetched, e ≠ iid →
      (tb'.getEvt e).isPending = (tb.getEvt e).isPending := by
    intro e he hne
    have hepos := mem_fetched.mp he
    rw [hget, if_neg]
    rintro ⟨hp, hi, -⟩
    obtain ⟨p, i⟩ := e
    obtain ⟨q, j⟩ := iid
    apply hne
    rw [IID.mk.injEq]
    dsimp only at hp hi hpos hepos
    omega
  have hself : (tb'.getEvt iid).isPending = false := by
    rw [hget, if_pos ⟨rfl, rfl, hsound.shape.lt_length hfetched⟩, PAEvent.isPending,
      hasLoadReq_modify ha (hsized _ _ (by omega)), Bool.not_true, Bool.and_false]
  unfold Counts at h ⊢
  by_cases hreq : (tb.getEvt iid).hasLoadReq = true
  · have hold : (tb.getEvt iid).isPending = false := by
      rw [PAEvent.isPending, hreq, Bool.not_true, Bool.and_false]
    have hlength : tb'.pending.length = tb.pending.length := by
      refine length_pending_same (mem_fetched_same hcalm) fun e he => ?_
      by_cases hne : e = iid
      · rw [hne, hself, hold]
      · exact hother e he hne
    rw [hcount, if_pos hreq, h, hlength]
  · have hold : (tb.getEvt iid).isPending = true := by
      rw [PAEvent.isPending, (Bool.not_eq_true _).mp hreq, hcommitted]
      rfl
    have hremove := length_pending_remove (mem_fetched_same hcalm) hfetched hold hself hother
    rw [hcount, if_neg hreq, h, hremove]
    omega

/-- A fetched event is pending. -/
theorem Fresh.isPending {proc l s : Nat} {addrDeps dataDeps : VecSet Nat} {evt : PAEvent}
    (hf : Fresh tb proc l s addrDeps dataDeps evt) (h : Shape tb) : evt.isPending = true := by
  have hcommitted : evt.committed = false := by
    rcases hf.committed with hc | ⟨hstatus, hc⟩
    · exact hc
    · rw [hc]
      exact h.unfetched proc _ (Nat.le_refl _) hstatus
  have hreq : evt.hasLoadReq = false := by
    unfold PAEvent.hasLoadReq
    rw [hf.accesses, List.any_eq_false]
    intro A hA
    rcases List.mem_append.mp (List.mem_of_mem_take hA) with hA | hA
    · rw [List.eq_of_mem_replicate hA]
      exact Bool.false_ne_true
    · rw [List.eq_of_mem_replicate hA]
      exact Bool.false_ne_true
  rw [PAEvent.isPending, hcommitted, hreq]
  rfl

theorem Counts.schedule {s : Scheduled} (h : tb.Counts k) (hsound : Sound tb)
    (hs : tb.schedule cfg = some (s, tb')) : tb'.Counts k := by
  have hkeep : ∀ tb₀, Kept PAEvent.core tb tb₀ → tb₀.Counts k := by
    intro tb₀ hkept
    unfold Counts
    rw [hkept.count, length_pending_kept hkept]
    exact h
  rcases hsound.schedule hs with
    ⟨-, -, hkept⟩ | ⟨e, tb₀, -, hkept, -, hcommittable, hfetched, hmarks, -⟩
  · exact hkeep tb' hkept
  · exact count_marks hmarks hfetched hcommittable.uncommitted (hkeep tb₀ hkept)

theorem Counts.act {a : Action} (h : tb.Counts k) (hsound : Sound tb) (hsized : Sized tb)
    (hallowed : tb.Allowed a) (ha : tb.act cfg a = some tb') : tb'.Counts k := by
  have hsame : tb'.uncommittedNonblockingCount = tb.uncommittedNonblockingCount →
      tb'.pending.length = tb.pending.length → tb'.Counts k := by
    intro hcount hlength
    unfold Counts
    rw [hcount, hlength]
    exact h
  cases a with
  | spawn proc =>
    refine hsame ?_ (length_pending_spawn ha)
    unfold TB.act TB.spawn at ha
    obtain ⟨-, ha⟩ := Option.ite_none_right_eq_some.mp ha
    cases ha
    rfl
  | abort =>
    cases ha
    exact h
  | fetch proc l s addrDeps dataDeps =>
    obtain ⟨evt, hf, he⟩ := fetch_enters ha
    unfold Counts at h ⊢
    rw [he.count, length_pending_enters he (hf.isPending hsound.shape), h]
    omega
  | registerAddr iid a addr =>
    refine hsame ?_ (length_pending_calm (calm_registerAddr ha) fun _ _ => isPending_of_steady)
    unfold TB.act TB.registerAddr at ha
    obtain ⟨-, ha⟩ := Option.ite_none_right_eq_some.mp ha
    cases ha
    rfl
  | registerData iid a data =>
    refine hsame ?_ (length_pending_calm (calm_registerData ha) fun _ _ => isPending_of_steady)
    unfold TB.act TB.registerData at ha
    obtain ⟨-, ha⟩ := Option.ite_none_right_eq_some.mp ha
    cases ha
    rfl
  | registerLoadRequirement iid a f =>
    exact h.registerLoadRequirement hsound hsized hallowed.1 hallowed.2 ha
  | fetchCtrl proc deps =>
    refine hsame ?_ (length_pending_calm (calm_fetchCtrl ha) fun _ _ => congrArg _)
    unfold TB.act TB.fetchCtrl at ha
    obtain ⟨-, ha⟩ := Option.ite_none_right_eq_some.mp ha
    cases ha
    rfl
  | fetchFence proc type =>
    cases ha
    refine hsame (by cases type <;> rfl) (length_pending_calm (calm_fetchFence type) ?_)
    intro evt evt' hevt
    have hpart : (withoutFences evt').isPending = (withoutFences evt).isPending :=
      congrArg PAEvent.isPending hevt
    exact hpart
  | schedule =>
    obtain ⟨⟨s, tb₁⟩, hs, rfl⟩ := Option.map_eq_some_iff.mp ha
    exact h.schedule hsound hs

theorem pending_of_threads (h : tb.threads = [{}]) : tb.pending = [] := by
  have hfetched : tb.fetched = [] := by
    apply List.eq_nil_iff_forall_not_mem.mpr
    intro e he
    have hle := (mem_fetched.mp he).2
    rw [thread, h] at hle
    have hzero : ([({} : Thread)].getD e.pid {}).fchCount = 0 := by cases e.pid <;> rfl
    omega
  rw [pending, hfetched]
  rfl

end TB

/-- The count is too large by the events that `replay` left pending since the last `reset`. -/
theorem Run.counts {cfg : Config} {S : Session} (h : Run cfg S) : S.tb.Counts S.carried := by
  induction h with
  | start => rfl
  | act a hrun hallowed ha ih => exact ih.act hrun.sound hrun.sized hallowed ha
  | @replay S hrun ih =>
    unfold TB.Counts at ih ⊢
    rw [TB.pending_of_threads (rfl : S.tb.replay.threads = [{}])]
    show S.tb.uncommittedNonblockingCount = _
    rw [ih]
    push_cast
    exact Int.add_comm _ _ ▸ (Int.zero_add _).symm
  | reset hrun hr ih =>
    obtain ⟨tb₁, n, -, rfl⟩ := hrun.sound.reset hr
    unfold TB.Counts
    rw [TB.pending_of_threads (rfl : (tb₁.restart n).threads = [{}])]
    rfl

namespace TB

/-- Only blocking events are left uncommitted. -/
def OnlyBlocking (tb : TB) : Prop :=
  ∀ e ∈ tb.fetched, (tb.getEvt e).committed = true ∨ (tb.getEvt e).hasLoadReq = true

/-- The count is that of the pending events, and it tells whether only blocking events are
left. -/
structure CountRight (tb : TB) : Prop where
  count : tb.uncommittedNonblockingCount = tb.pending.length
  empty : tb.sleepsetIsEmpty = true ↔ tb.OnlyBlocking

theorem pending_eq_nil {tb : TB} : tb.pending = [] ↔ tb.OnlyBlocking := by
  unfold pending OnlyBlocking
  rw [List.filter_eq_nil_iff]
  refine forall₂_congr fun e _ => ?_
  unfold PAEvent.isPending
  cases (tb.getEvt e).committed <;> cases (tb.getEvt e).hasLoadReq <;> simp

end TB

/-- The count is right exactly when no event was pending when `replay` was called since the
last `reset`. -/
theorem countRight_iff {cfg : Config} {S : Session} (h : Run cfg S) :
    S.tb.CountRight ↔ S.carried = 0 := by
  have hcounts := h.counts
  unfold TB.Counts at hcounts
  constructor
  · intro hright
    have hcount := hright.count
    omega
  · intro hcarried
    have hcount : S.tb.uncommittedNonblockingCount = S.tb.pending.length := by omega
    refine ⟨hcount, ?_⟩
    rw [TB.sleepsetIsEmpty, decide_eq_true_iff, hcount, ← TB.pending_eq_nil,
      ← List.length_eq_zero_iff]
    omega

/-- A computation that has fetched one load. -/
def oneLoad : Session where
  tb := (TB.fetch {} 0 1 0 ∅ ∅).getD {}

theorem run_oneLoad (cfg : Config) : Run cfg oneLoad :=
  .act (.fetch 0 1 0 ∅ ∅) .start (fun _ hi => absurd hi List.not_mem_nil) rfl

theorem countRight_oneLoad : oneLoad.tb.CountRight :=
  (countRight_iff (run_oneLoad { model := .power })).mpr rfl

/-- The computation is replayed before the load is committed. -/
def abandoned : Session where
  tb := oneLoad.tb.replay
  carried := 1

/-- The counter is not cleared: it is 1 with no event fetched. -/
theorem not_countRight_abandoned :
    Run { model := .power } abandoned ∧ ¬abandoned.tb.CountRight := by
  refine ⟨(run_oneLoad { model := .power }).replay, fun h => ?_⟩
  have hcount : abandoned.tb.uncommittedNonblockingCount = 1 := rfl
  have hpending : abandoned.tb.pending = [] := rfl
  have hright := h.count
  rw [hcount, hpending] at hright
  cases hright

end ViEqui.Power
