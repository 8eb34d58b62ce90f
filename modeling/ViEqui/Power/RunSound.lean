import ViEqui.Power.RunCommit

/-!
# Every run has its shape

Spawning and fetching keep the shape of the events, and `replay` and `reset` leave events
that the next computation can fetch.  With the calls that fetch nothing and with commits,
this covers every step of a run.
-/

namespace ViEqui.Power

open GetD

namespace TB

variable {cfg : Config} {tb tb' : TB} {iid e : IID} {p i q j proc : Nat}

/-! ## Spawning and fetching -/

/-- A new thread has fetched nothing, like a thread that is not there. -/
theorem spawn_same (h : tb.spawn proc = some tb') :
    tb'.threads.length = tb.threads.length + 1 ∧ tb'.fch.length = tb.fch.length + 1 ∧
      (∀ p, tb'.thread p = tb.thread p) ∧ (∀ p, tb'.evtsOf p = tb.evtsOf p) := by
  unfold spawn at h
  split_ifs at h
  cases h
  refine ⟨?_, ?_, fun p => ?_, fun p => ?_⟩
  · exact List.length_append
  · exact List.length_append
  · show (tb.threads ++ [({} : Thread)]).getD p {} = tb.threads.getD p {}
    rw [getD_concat]
    split_ifs with hp
    · rw [List.getD_eq_default _ _ (by omega)]
    · rfl
  · show (tb.fch ++ [[]]).getD p [] = tb.fch.getD p []
    rw [getD_concat]
    split_ifs with hp
    · rw [List.getD_eq_default _ _ (by omega)]
    · rfl

theorem fchAt_of_evtsOf (h : ∀ p, tb'.evtsOf p = tb.evtsOf p) (p i : Nat) :
    tb'.fchAt p i = tb.fchAt p i := by
  show (tb'.evtsOf p).getD i {} = (tb.evtsOf p).getD i {}
  rw [h]

theorem Shape.spawn (h : Shape tb) (hs : tb.spawn proc = some tb') : Shape tb' := by
  obtain ⟨hthreads, hfch, hthread, hevts⟩ := spawn_same hs
  refine ⟨by omega, ?_, fun p => ?_, fun p => ?_, fun p i hi hstatus => ?_⟩
  · have hle := h.fch
    omega
  · rw [hthread, hevts]
    exact h.fetched p
  · rw [hthread]
    exact h.addrKnown p
  · rw [hthread] at hi
    rw [fchAt_of_evtsOf hevts] at hstatus ⊢
    exact h.unfetched p i hi hstatus

theorem Indexed.spawn (h : Indexed tb) (hs : tb.spawn proc = some tb') : Indexed tb' := by
  obtain ⟨-, -, -, hevts⟩ := spawn_same hs
  have hrest : tb'.execPrefix = tb.execPrefix ∧ tb'.mem = tb.mem := by
    unfold TB.spawn at hs
    split_ifs at hs
    cases hs
    exact ⟨rfl, rfl⟩
  refine ⟨hrest.1 ▸ h.execPrefix, hrest.2 ▸ h.loads, fun p i => ?_⟩
  rw [fchAt_of_evtsOf hevts]
  exact h.branches p i

theorem Shape.enters {evt : PAEvent} (h : Shape tb) (he : Enters tb proc evt tb') :
    Shape tb' := by
  obtain ⟨k, hk, hself⟩ := he.self
  have hcount : ∀ p, (tb'.thread p).fchCount = if p = proc then (tb.thread p).fchCount + 1
      else (tb.thread p).fchCount := by
    intro p
    split_ifs with hp
    · rw [hp, hself]
    · rw [he.other p hp]
  refine ⟨?_, ?_, fun p => ?_, fun p => ?_, fun p i hi hstatus => ?_⟩
  · rw [he.threads]
    exact h.pos
  · rw [he.threads, he.fch]
    exact h.fch
  · have hle := h.fetched p
    rw [hcount, he.length]
    split_ifs with hp
    · subst hp
      exact Nat.le_max_right _ _
    · exact hle
  · have hle := h.addrKnown p
    rw [hcount]
    split_ifs with hp
    · subst hp
      rw [hself]
      show k ≤ _
      omega
    · rw [he.other p hp]
      exact hle
  · rw [hcount] at hi
    by_cases hp : p = proc
    · subst hp
      rw [if_pos rfl] at hi
      rw [he.evt, if_neg fun h' => by omega] at hstatus ⊢
      exact h.unfetched p i (by omega) hstatus
    · rw [if_neg hp] at hi
      rw [he.evt, if_neg fun h' => hp h'.1] at hstatus ⊢
      exact h.unfetched p i hi hstatus

theorem Indexed.enters {evt : PAEvent} {l s : Nat} {addrDeps dataDeps : VecSet Nat}
    (h : Indexed tb) (hf : Fresh tb proc l s addrDeps dataDeps evt)
    (he : Enters tb proc evt tb') : Indexed tb' := by
  refine ⟨he.execPrefix ▸ h.execPrefix, he.mem ▸ h.loads, fun p i B hB => ?_⟩
  rw [he.evt] at hB
  split_ifs at hB
  · exact h.branches _ _ B (hf.newBranches B hB)
  · exact h.branches p i B hB

/-! ## The next computation -/

/-- `clear` of an event that is fetched. -/
def cleared (keep : IID → PAEvent → Bool) (e : IID) (evt : PAEvent) : PAEvent :=
  if keep e evt then { evt with committed := false, accesses := [], baccesses := [] }
  else { evt with filledStatus := .empty }

theorem evtsOf_clearEvents (keep : IID → PAEvent → Bool) (p : Nat) :
    (tb.clearEvents keep).evtsOf p = (tb.evtsOf p).mapIdx fun j evt =>
      if p < tb.threads.length ∧ j < (tb.thread p).fchCount then cleared keep ⟨p, j + 1⟩ evt
      else evt := by
  show (tb.fch.mapIdx _).getD p [] = _
  rw [List.getD_eq_getElem?_getD, List.getElem?_mapIdx]
  unfold evtsOf
  rw [List.getD_eq_getElem?_getD]
  cases tb.fch[p]? with
  | none => rfl
  | some evts => rfl

theorem fchAt_clearEvents (keep : IID → PAEvent → Bool) (p i : Nat) :
    (tb.clearEvents keep).fchAt p i =
      if p < tb.threads.length ∧ i < (tb.thread p).fchCount ∧ i < (tb.evtsOf p).length then
        cleared keep ⟨p, i + 1⟩ (tb.fchAt p i)
      else tb.fchAt p i := by
  show ((tb.clearEvents keep).evtsOf p).getD i {} = _
  rw [evtsOf_clearEvents, List.getD_eq_getElem?_getD, List.getElem?_mapIdx]
  show _ = if _ then cleared keep ⟨p, i + 1⟩ ((tb.evtsOf p).getD i {})
    else (tb.evtsOf p).getD i {}
  by_cases hlt : i < (tb.evtsOf p).length
  · rw [List.getElem?_eq_getElem hlt, List.getD_eq_getElem _ _ hlt]
    show (if p < tb.threads.length ∧ i < (tb.thread p).fchCount then _ else _) = _
    split_ifs with h h' h'
    · rfl
    · exact absurd ⟨h.1, h.2, hlt⟩ h'
    · exact absurd ⟨h'.1, h'.2.1⟩ h
    · rfl
  · rw [List.getElem?_eq_none (by omega), if_neg fun h => hlt h.2.2,
      List.getD_eq_default _ _ (by omega)]
    rfl

/-- All threads are as they start. -/
theorem thread_clearData (p : Nat) : tb.clearData.thread p = {} := by
  show [({} : Thread)].getD p {} = {}
  cases p <;> rfl

theorem Shape.clear (h : Shape tb) (keep : IID → PAEvent → Bool) :
    Shape (tb.clearEvents keep).clearData where
  pos := Nat.one_pos
  fch := by
    have hlen : (tb.clearEvents keep).clearData.fch.length = tb.fch.length :=
      List.length_mapIdx
    have hpos := h.pos
    have hle := h.fch
    rw [hlen]
    show 1 ≤ tb.fch.length
    omega
  fetched p := by
    rw [thread_clearData]
    exact Nat.zero_le _
  addrKnown p := by
    rw [thread_clearData]
  unfetched p i _ hstatus := by
    change ((tb.clearEvents keep).fchAt p i).filledStatus = .complete at hstatus
    show ((tb.clearEvents keep).fchAt p i).committed = false
    rw [fchAt_clearEvents] at hstatus ⊢
    unfold cleared at hstatus ⊢
    split_ifs at hstatus ⊢ with hfetched hkeep
    · rfl
    · refine h.unfetched p i (Nat.le_of_not_lt fun hlt => hfetched ?_) hstatus
      exact ⟨lt_threads_of_fchCount hlt, hlt, hlt.trans_le (h.fetched p)⟩

theorem Indexed.clear (h : Indexed tb) (keep : IID → PAEvent → Bool) :
    Indexed (tb.clearEvents keep).clearData := by
  refine ⟨h.execPrefix, fun p L hL e he => ?_, fun p i B hB => ?_⟩
  · change L ∈ [(∅ : VecSet IID)] at hL
    rw [List.mem_singleton.mp hL] at he
    exact absurd he (VecSet.not_mem_empty e)
  · change B ∈ ((tb.clearEvents keep).fchAt p i).newBranches at hB
    rw [fchAt_clearEvents] at hB
    unfold cleared at hB
    split_ifs at hB <;> exact h.branches p i B hB

/-! ## What `reset` chooses -/

theorem Shape.modifyEvt {f : PAEvent → PAEvent} (h : Shape tb)
    (hf : ∀ evt, (f evt).committed = evt.committed ∧
      ((f evt).filledStatus = .complete → evt.filledStatus = .complete)) :
    Shape (tb.modifyEvt iid f) where
  pos := h.pos
  fch := (List.length_modify (i := iid.pid) _ tb.fch).symm ▸ h.fch
  fetched p := (length_evtsOf_modifyFch iid.pid (iid.idx - 1) p f).symm ▸ h.fetched p
  addrKnown := h.addrKnown
  unfetched p i hi hstatus := by
    rw [TB.modifyEvt, fchAt_modifyFch] at hstatus ⊢
    split_ifs at hstatus ⊢ with hpi
    · rw [(hf _).1]
      rw [← hpi.1, ← hpi.2.1] at hstatus ⊢
      exact h.unfetched p i hi ((hf _).2 hstatus)
    · exact h.unfetched p i hi hstatus

theorem Indexed.modifyEvt {f : PAEvent → PAEvent} (h : Indexed tb)
    (hf : ∀ B ∈ (f (tb.getEvt iid)).newBranches, B.Indexed) :
    Indexed (tb.modifyEvt iid f) := by
  refine ⟨h.execPrefix, h.loads, fun p i B hB => ?_⟩
  rw [TB.modifyEvt, fchAt_modifyFch] at hB
  split_ifs at hB
  · exact Branch.indexed_iff.mp (hf B hB)
  · exact h.branches p i B hB

theorem Indexed.branch (h : Indexed tb) {B : Branch} (hB : B ∈ (tb.getEvt iid).newBranches) :
    B.Indexed :=
  Branch.indexed_iff.mpr (h.branches _ _ B hB)

/-- The next computation behind the first `n` events of the prefix. -/
def restart (tb : TB) (n : Nat) : TB :=
  { (tb.clearEvents fun e _ => e ∈ tb.execPrefix.take n).clearData with
    execPrefix := tb.execPrefix.take n
    uncommittedNonblockingCount := 0 }

/-- `reset` chooses the next parameter, or it locks a branch. -/
theorem reset_cases (h : tb.reset = some (some tb')) :
    ∃ i tb₁ n, ((∃ P, tb.nextParam i P = some (tb₁, n)) ∨
      ∃ B rest, (tb.getEvt (tb.prefixAt i)).newBranches = B :: rest ∧
        tb.lockBranch i B rest = some (tb₁, n)) ∧ tb' = tb₁.restart n := by
  unfold reset at h
  cases hidx : tb.resetIndex with
  | none =>
    rw [hidx] at h
    cases h
  | some i =>
    rw [hidx] at h
    dsimp only at h
    cases hparam : (tb.getEvt (tb.prefixAt i)).newParams.getLast? with
    | some P =>
      rw [hparam] at h
      obtain ⟨⟨tb₁, n⟩, hnext, h⟩ := Option.bind_eq_some_iff.mp h
      cases h
      exact ⟨i, tb₁, n, .inl ⟨P, hnext⟩, rfl⟩
    | none =>
      rw [hparam] at h
      cases hB : (tb.getEvt (tb.prefixAt i)).newBranches with
      | nil =>
        rw [hB] at h
        cases h
      | cons B rest =>
        rw [hB] at h
        obtain ⟨⟨tb₁, n⟩, hlock, h⟩ := Option.bind_eq_some_iff.mp h
        cases h
        exact ⟨i, tb₁, n, .inr ⟨B, rest, hB, hlock⟩, rfl⟩

/-- The state of a run, whose next events can be fetched. -/
structure Sound (tb : TB) : Prop where
  shape : Shape tb
  indexed : Indexed tb

namespace Sound

/-- The branches of the changed event stay, and it is not taken over as complete. -/
theorem modifyEvt {f : PAEvent → PAEvent} (h : Sound tb)
    (hf : ∀ evt, (f evt).committed = evt.committed ∧
      ((f evt).filledStatus = .complete → evt.filledStatus = .complete))
    (hb : ∀ B ∈ (f (tb.getEvt iid)).newBranches, B.Indexed) : Sound (tb.modifyEvt iid f) :=
  ⟨h.shape.modifyEvt hf, h.indexed.modifyEvt hb⟩

theorem nextParam {i n : Nat} {P : Param} (h : Sound tb)
    (hn : tb.nextParam i P = some (tb', n)) : Sound tb' := by
  unfold TB.nextParam at hn
  dsimp only at hn
  have hcur : Sound (tb.modifyEvt (tb.prefixAt i) fun evt =>
      { evt with curParam := P, newParams := evt.newParams.dropLast }) :=
    h.modifyEvt (fun _ => ⟨rfl, id⟩) fun _ => h.indexed.branch
  split_ifs at hn
  · cases hn
    exact hcur
  · cases hn
    refine hcur.modifyEvt (fun _ => ⟨rfl, fun hs => ?_⟩) fun _ => hcur.indexed.branch
    cases hs
  · cases hn
    exact hcur

theorem lockEvent {i : Nat} {B : Branch} {P : PEvent} (h : Sound tb) :
    Sound (TB.lockEvent i B tb P) := by
  refine h.modifyEvt (fun _ => ⟨rfl, fun hs => ?_⟩) fun _ hB => absurd hB List.not_mem_nil
  cases hs

theorem lockTail {B : Branch} (h : Sound tb) (hl : lockTail B tb = some tb') : Sound tb' := by
  unfold TB.lockTail at hl
  dsimp only at hl
  cases hB : B.paramType with
  | wr =>
    rw [hB] at hl
    dsimp only at hl
    split_ifs at hl
    cases hl
    have h₁ : Sound (tb.modifyEvt (B.branch.getD (B.branch.length - 2) { iid := ⟨0, 0⟩ }).iid
        fun evt => { evt with recalcParams := .star }) :=
      h.modifyEvt (fun _ => ⟨rfl, id⟩) fun _ => h.indexed.branch
    exact h₁.modifyEvt (fun _ => ⟨rfl, id⟩) fun _ => h₁.indexed.branch
  | star =>
    rw [hB] at hl
    dsimp only at hl
    split_ifs at hl
    cases hl
    exact h.modifyEvt (fun _ => ⟨rfl, id⟩) fun _ => h.indexed.branch

theorem withPrefix {l : List IID} (h : Sound tb) (hl : ∀ e ∈ l, 0 < e.idx) :
    Sound { tb with execPrefix := l } :=
  ⟨⟨h.shape.pos, h.shape.fch, h.shape.fetched, h.shape.addrKnown, h.shape.unfetched⟩,
    ⟨hl, h.indexed.loads, h.indexed.branches⟩⟩

theorem lockBranch {i n : Nat} {B : Branch} {rest : List Branch} (h : Sound tb)
    (hB : ∀ A ∈ B :: rest, A.Indexed) (hl : tb.lockBranch i B rest = some (tb', n)) :
    Sound tb' := by
  unfold TB.lockBranch at hl
  dsimp only at hl
  obtain ⟨-, hl⟩ := Option.ite_none_right_eq_some.mp hl
  obtain ⟨tb₁, htail, hl⟩ := Option.bind_eq_some_iff.mp hl
  cases hl
  have hcleared : Sound (tb.modifyEvt (tb.prefixAt i) fun evt => { evt with newBranches := [] }) :=
    h.modifyEvt (fun _ => ⟨rfl, id⟩) fun _ hB => absurd hB List.not_mem_nil
  have hlocked : Sound tb₁ := by
    refine lockTail ?_ htail
    have hfold : ∀ (l : List PEvent) (tb : TB), Sound tb →
        Sound (l.foldl (TB.lockEvent i B) tb) := by
      intro l
      induction l with
      | nil => exact fun tb h => h
      | cons P l ih => exact fun tb h => ih _ h.lockEvent
    refine hfold _ _ (hcleared.withPrefix fun e he => ?_)
    rcases List.mem_append.mp he with he | he
    · rcases List.mem_append.mp he with he | he
      · exact h.indexed.execPrefix e (List.mem_of_mem_take he)
      · exact hB B List.mem_cons_self e he
    · exact h.indexed.execPrefix e (List.mem_of_mem_drop he)
  refine hlocked.modifyEvt (fun _ => ⟨rfl, id⟩) fun A hA => ?_
  have hunion : ∀ (l L : List Branch), (∀ C ∈ l, C.Indexed) → (∀ C ∈ L, C.Indexed) →
      ∀ C ∈ l.foldl (fun L A => insertBranch A L) L, C.Indexed := by
    intro l
    induction l with
    | nil => exact fun L _ hL => hL
    | cons C l ih =>
      intro L hl hL
      rw [List.forall_mem_cons] at hl
      refine ih _ hl.2 fun D hD => ?_
      rcases mem_insertBranch hD with rfl | hD
      · exact hl.1
      · exact hL D hD
  exact hunion rest _ (List.forall_mem_cons.mp hB).2 (fun C => hlocked.indexed.branch) A hA

theorem restart {n : Nat} (h : Sound tb) : Sound (tb.restart n) := by
  have hclear : Sound (tb.clearEvents fun e _ => e ∈ tb.execPrefix.take n).clearData :=
    ⟨h.shape.clear _, h.indexed.clear _⟩
  have hpre := hclear.withPrefix (l := tb.execPrefix.take n)
    fun e he => h.indexed.execPrefix e (List.mem_of_mem_take he)
  exact ⟨⟨hpre.shape.pos, hpre.shape.fch, hpre.shape.fetched, hpre.shape.addrKnown,
    hpre.shape.unfetched⟩, ⟨hpre.indexed.execPrefix, hpre.indexed.loads,
    hpre.indexed.branches⟩⟩

theorem reset (h : Sound tb) (hr : tb.reset = some (some tb')) :
    ∃ tb₁ n, Sound tb₁ ∧ tb' = tb₁.restart n := by
  obtain ⟨i, tb₁, n, hcases, rfl⟩ := reset_cases hr
  rcases hcases with ⟨P, hnext⟩ | ⟨B, rest, hB, hlock⟩
  · exact ⟨tb₁, n, h.nextParam hnext, rfl⟩
  · exact ⟨tb₁, n, h.lockBranch (fun A hA => h.indexed.branch (hB ▸ hA)) hlock, rfl⟩

theorem replay (h : Sound tb) : Sound tb.replay :=
  ⟨h.shape.clear _, h.indexed.clear _⟩

theorem enters {evt : PAEvent} {l s : Nat} {addrDeps dataDeps : VecSet Nat}
    (h : Sound tb) (hf : Fresh tb proc l s addrDeps dataDeps evt) (he : Enters tb proc evt tb') :
    Sound tb' :=
  ⟨h.shape.enters he, h.indexed.enters hf he⟩

/-- An attempt of `schedule`. -/
theorem schedule {s : Scheduled} (h : Sound tb) (hs : tb.schedule cfg = some (s, tb')) :
    (s = none ∧ Sound tb' ∧ Kept PAEvent.core tb tb') ∨
    ∃ e tb₀, Sound tb₀ ∧ Kept PAEvent.core tb tb₀ ∧ Committing cfg tb₀ e tb' ∧
      tb₀.Committable e ∧ e ∈ tb₀.fetched ∧ Marks tb₀ e tb' ∧ Sound tb' := by
  have hskip : ∀ tb₀ e ok tb', tb.Tried e → Sound tb₀ ∧ Kept PAEvent.core tb tb₀ →
      tb₀.committable cfg e = some (ok, tb') → Sound tb' ∧ Kept PAEvent.core tb tb' := by
    intro tb₀ e ok tb' _ h₀ hc
    have hkept := (kept_committable hc).core
    exact ⟨⟨h₀.1.shape.kept hkept, h₀.1.indexed.committable hc⟩, h₀.2.trans hkept⟩
  have hfail : ∀ tb₀ e replay tb', tb.Tried e → Sound tb₀ ∧ Kept PAEvent.core tb tb₀ →
      tb₀.commit cfg e replay = some (none, tb') → Sound tb' ∧ Kept PAEvent.core tb tb' := by
    intro tb₀ e replay tb' htried h₀ hc
    rcases commit_cases hc with ⟨tb₁, -, hchoose, rfl⟩ | ⟨tb₁, tb₂, tb₃, hsome, -⟩
    · have hkept := kept_chooseParam hchoose
      have hdetect : Kept PAEvent.core tb₀ (tb₁.detectRwConflicts cfg e) :=
        hkept.core.trans kept_detectRwConflicts
      exact ⟨⟨h₀.1.shape.kept hdetect, (h₀.1.indexed.kept hkept
        (mem_chooseParam hchoose)).detectRwConflicts (h.indexed.tried htried)⟩,
        h₀.2.trans hdetect⟩
    · cases hsome
  rcases schedule_cases hskip hfail ⟨h, .refl tb⟩ hs with
    ⟨hnone, hsound, hkept⟩ | ⟨e, tb₀, htried, ⟨h₀, hkept⟩, hcommit⟩
  · exact .inl ⟨hnone, hsound, hkept⟩
  · obtain ⟨hcommittable, hfetched, hmarks, hindexed⟩ :=
      committing_marks h₀.shape h₀.indexed (h.indexed.tried htried) hcommit
    exact .inr ⟨e, tb₀, h₀, hkept, hcommit, hcommittable, hfetched, hmarks,
      ⟨h₀.shape.marks hfetched hmarks, hindexed⟩⟩

theorem calm {β : Type} {π : PAEvent → β} (h : Sound tb) (hc : Calm π tb tb')
    (g : β → Bool × EventFilledStatus) (hg : ∀ evt, g (π evt) = evt.status)
    (k : β → List Branch) (hk : ∀ evt, k (π evt) = evt.newBranches) : Sound tb' :=
  ⟨hc.shape g hg h.shape, hc.indexed k hk h.indexed⟩

theorem act {a : Action} (h : Sound tb) (ha : tb.act cfg a = some tb') : Sound tb' := by
  cases a with
  | spawn proc => exact ⟨h.shape.spawn ha, h.indexed.spawn ha⟩
  | abort =>
    cases ha
    exact ⟨⟨h.shape.pos, h.shape.fch, h.shape.fetched, h.shape.addrKnown, h.shape.unfetched⟩,
      ⟨h.indexed.execPrefix, h.indexed.loads, h.indexed.branches⟩⟩
  | fetch proc l s addrDeps dataDeps =>
    obtain ⟨evt, hf, he⟩ := fetch_enters ha
    exact h.enters hf he
  | registerAddr iid a addr =>
    exact h.calm (calm_registerAddr ha) PAEvent.status (fun _ => rfl) PAEvent.newBranches
      fun _ => rfl
  | registerData iid a data =>
    exact h.calm (calm_registerData ha) PAEvent.status (fun _ => rfl) PAEvent.newBranches
      fun _ => rfl
  | registerLoadRequirement iid a f =>
    exact h.calm (calm_registerLoadRequirement ha) PAEvent.status (fun _ => rfl) PAEvent.newBranches
      fun _ => rfl
  | fetchCtrl proc deps =>
    exact h.calm (calm_fetchCtrl ha) PAEvent.status (fun _ => rfl) PAEvent.newBranches
      fun _ => rfl
  | fetchFence proc type =>
    cases ha
    exact h.calm (calm_fetchFence type) PAEvent.status (fun _ => rfl) PAEvent.newBranches
      fun _ => rfl
  | schedule =>
    obtain ⟨⟨s, tb₁⟩, hs, rfl⟩ := Option.map_eq_some_iff.mp ha
    rcases h.schedule hs with ⟨-, hsound, -⟩ | ⟨e, tb₀, -, -, -, -, -, -, hsound⟩
    · exact hsound
    · exact hsound

end Sound

end TB

/-- Each state of a run is sound. -/
theorem Run.sound {cfg : Config} {S : Session} (h : Run cfg S) : S.tb.Sound := by
  induction h with
  | start =>
    refine ⟨⟨Nat.one_pos, Nat.le_refl 1, fun p => ?_, fun p => ?_, fun p i _ _ => ?_⟩,
      ⟨fun e he => absurd he List.not_mem_nil, fun p L hL e he => ?_, fun p i B hB => ?_⟩⟩
    · cases p <;> exact Nat.le_refl 0
    · cases p <;> exact Nat.le_refl 0
    · cases p <;> rfl
    · rw [List.mem_singleton.mp hL] at he
      exact absurd he (VecSet.not_mem_empty e)
    · cases p <;> exact absurd hB List.not_mem_nil
  | act a _ _ ha ih => exact ih.act ha
  | replay _ ih => exact ih.replay
  | reset _ hr ih =>
    obtain ⟨tb₁, n, h₁, rfl⟩ := ih.reset hr
    exact h₁.restart

end ViEqui.Power
