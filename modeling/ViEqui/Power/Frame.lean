import ViEqui.Power.Commit
import ViEqui.Lib.GetD

/-!
# What scheduling leaves as it was

`committable` and the steps of a commit change the parameters and the relations of events,
and the search for races enters branches.  The other fields of an event are its core.
`Kept π tb tb'` says that the part `π` of each event is in `tb'` as it is in `tb`, and that
the threads and the counters are the same.
-/

namespace ViEqui.Power

open GetD

/-- The event without its parameters and relations. -/
def PAEvent.bare (evt : PAEvent) : PAEvent :=
  { evt with
    curParam := {}
    newParams := []
    recalcParams := .no
    rel := {}
    cbBwd := {}
    polocBwdComputed := false }

/-- The event without what scheduling changes, `committed` apart. -/
def PAEvent.core (evt : PAEvent) : PAEvent := { evt.bare with newBranches := [] }

@[simp] theorem PAEvent.core_committed (evt : PAEvent) : evt.core.committed = evt.committed := rfl

@[simp] theorem PAEvent.core_filledStatus (evt : PAEvent) :
    evt.core.filledStatus = evt.filledStatus := rfl

@[simp] theorem PAEvent.core_hasLoadReq (evt : PAEvent) :
    evt.core.hasLoadReq = evt.hasLoadReq := rfl

namespace TB

variable {cfg : Config} {tb tb' tb'' : TB} {iid : IID} {β γ : Type} {π : PAEvent → β}

/-- The events of a thread. -/
def evtsOf (tb : TB) (p : Nat) : List PAEvent := tb.fch.getD p []

/-- The part `π` of the events is the same. -/
structure SameEvts (π : PAEvent → β) (tb tb' : TB) : Prop where
  fch : tb'.fch.length = tb.fch.length
  length : ∀ p, (tb'.evtsOf p).length = (tb.evtsOf p).length
  evt : ∀ p i, π (tb'.fchAt p i) = π (tb.fchAt p i)

/-- The part `π` of the events, the threads and the counters are the same. -/
structure Kept (π : PAEvent → β) (tb tb' : TB) : Prop extends SameEvts π tb tb' where
  threads : tb'.threads = tb.threads
  count : tb'.uncommittedNonblockingCount = tb.uncommittedNonblockingCount
  execPrefix : tb'.execPrefix = tb.execPrefix
  schedCount : tb'.schedCount = tb.schedCount

/-! ## One event is changed -/

theorem evtsOf_modifyFch (p i q : Nat) (f : PAEvent → PAEvent) :
    (tb.modifyFch p i f).evtsOf q =
      if q = p then (tb.evtsOf q).modify i f else tb.evtsOf q := by
  show (tb.fch.modify p _).getD q [] = _
  rw [getD_modify]
  by_cases hq : q = p
  · subst hq
    rw [if_pos rfl]
    split_ifs with h
    · rfl
    · have hnil : tb.evtsOf q = [] := List.getD_eq_default _ _ (by omega)
      rw [hnil, List.modify_nil]
      exact hnil
  · rw [if_neg hq, if_neg fun h => hq h.1]
    rfl

/-- An event that is not there stays the null event. -/
theorem fchAt_modifyFch (p i q j : Nat) (f : PAEvent → PAEvent) :
    (tb.modifyFch p i f).fchAt q j =
      if q = p ∧ j = i ∧ i < (tb.evtsOf p).length then f (tb.fchAt p i) else tb.fchAt q j := by
  show ((tb.modifyFch p i f).evtsOf q).getD j {} = _
  rw [evtsOf_modifyFch]
  by_cases hq : q = p
  · subst hq
    rw [if_pos rfl, getD_modify]
    split_ifs with h h' h'
    · rfl
    · exact absurd ⟨rfl, h⟩ h'
    · exact absurd h'.2 h
    · rfl
  · rw [if_neg hq, if_neg fun h => hq h.1]
    rfl

theorem length_evtsOf_modifyFch (p i q : Nat) (f : PAEvent → PAEvent) :
    ((tb.modifyFch p i f).evtsOf q).length = (tb.evtsOf q).length := by
  rw [evtsOf_modifyFch]
  split_ifs
  · exact List.length_modify _ _ _
  · rfl

namespace SameEvts

theorem refl (tb : TB) : SameEvts π tb tb := ⟨rfl, fun _ => rfl, fun _ _ => rfl⟩

theorem of_fch (h : tb'.fch = tb.fch) : SameEvts π tb tb' := by
  have hfchAt : tb'.fchAt = tb.fchAt := by
    funext p i
    rw [fchAt, h]
    rfl
  have hevtsOf : tb'.evtsOf = tb.evtsOf := by
    funext p
    rw [evtsOf, h]
    rfl
  exact ⟨congrArg List.length h, fun p => by rw [hevtsOf], fun p i => by rw [hfchAt]⟩

theorem trans (h : SameEvts π tb tb') (h' : SameEvts π tb' tb'') : SameEvts π tb tb'' where
  fch := h'.fch.trans h.fch
  length p := (h'.length p).trans (h.length p)
  evt p i := (h'.evt p i).trans (h.evt p i)

theorem map (g : β → γ) (h : SameEvts π tb tb') : SameEvts (fun evt => g (π evt)) tb tb' where
  fch := h.fch
  length := h.length
  evt p i := congrArg g (h.evt p i)

theorem modifyEvt {f : PAEvent → PAEvent} (hf : ∀ evt, π (f evt) = π evt) :
    SameEvts π tb (tb.modifyEvt iid f) where
  fch := List.length_modify _ _ _
  length p := length_evtsOf_modifyFch _ _ p f
  evt p i := by
    rw [TB.modifyEvt, fchAt_modifyFch]
    split_ifs with h
    · rw [hf, h.1, h.2.1]
    · rfl

end SameEvts

namespace Kept

theorem refl (tb : TB) : Kept π tb tb := ⟨.refl tb, rfl, rfl, rfl, rfl⟩

theorem trans (h : Kept π tb tb') (h' : Kept π tb' tb'') : Kept π tb tb'' where
  toSameEvts := h.toSameEvts.trans h'.toSameEvts
  threads := h'.threads.trans h.threads
  count := h'.count.trans h.count
  execPrefix := h'.execPrefix.trans h.execPrefix
  schedCount := h'.schedCount.trans h.schedCount

theorem modifyEvt {f : PAEvent → PAEvent} (hf : ∀ evt, π (f evt) = π evt) :
    Kept π tb (tb.modifyEvt iid f) :=
  ⟨.modifyEvt hf, rfl, rfl, rfl, rfl⟩

theorem foldl {α : Type} {f : TB → α → TB} (hf : ∀ tb a, Kept π tb (f tb a)) (l : List α)
    (tb : TB) : Kept π tb (l.foldl f tb) := by
  induction l generalizing tb with
  | nil => exact refl tb
  | cons a l ih => exact (hf tb a).trans (ih _)

theorem thread (h : Kept π tb tb') (p : Nat) : tb'.thread p = tb.thread p := by
  rw [TB.thread, h.threads]
  rfl

theorem map (g : β → γ) (h : Kept π tb tb') : Kept (fun evt => g (π evt)) tb tb' :=
  ⟨h.toSameEvts.map g, h.threads, h.count, h.execPrefix, h.schedCount⟩

theorem core (h : Kept PAEvent.bare tb tb') : Kept PAEvent.core tb tb' :=
  h.map fun evt => { evt with newBranches := [] }

end Kept

/-! ## The steps of a commit -/

theorem kept_computePolocBwd : Kept PAEvent.bare tb (tb.computePolocBwd iid) := by
  unfold computePolocBwd
  dsimp only
  split_ifs
  · exact .refl tb
  · exact .modifyEvt fun _ => rfl

theorem kept_committable {ok : Bool} (h : tb.committable cfg iid = some (ok, tb')) :
    Kept PAEvent.bare tb tb' := by
  unfold committable at h
  dsimp only at h
  split_ifs at h
  · cases h
    exact .refl tb
  · cases h
    exact .refl tb
  · cases hm : cfg.model with
    | arm =>
      rw [hm] at h
      cases h
      exact .refl tb
    | power =>
      rw [hm] at h
      cases h
      exact kept_computePolocBwd

theorem kept_modifyRel (r : RelField) (f : Rel → Rel) :
    Kept PAEvent.bare tb (tb.modifyRel r iid f) :=
  .modifyEvt fun _ => rfl

theorem kept_link (r : RelField) (ab : IID × IID) : Kept PAEvent.bare tb (link r tb ab) :=
  (kept_modifyRel r _).trans (kept_modifyRel r _)

theorem kept_returnRelations : Kept PAEvent.bare tb (tb.returnRelations iid) := by
  refine .foldl (fun tb r => ?_) relFields tb
  exact (Kept.foldl (fun tb e => kept_modifyRel r _) _ _).trans
    (Kept.foldl (fun tb e => kept_modifyRel r _) _ _)

theorem kept_setupRelations (h : tb.setupRelations cfg iid = some tb') :
    Kept PAEvent.bare tb tb' := by
  unfold setupRelations at h
  dsimp only at h
  split_ifs at h
  cases h
  have hrel : Kept PAEvent.bare tb
      (tb.modifyEvt iid fun evt => { evt with rel := (tb.getEvt iid).curParam.rel }) :=
    .modifyEvt fun _ => rfl
  have hlinks : ∀ (r : RelField) (l : List (IID × IID)) (tb : TB),
      Kept PAEvent.bare tb (l.foldl (link r) tb) :=
    fun r l tb => .foldl (fun tb ab => kept_link r ab) l tb
  refine Kept.trans ?_ (Kept.modifyEvt fun _ => rfl)
  refine Kept.trans ?_ (hlinks _ _ _)
  refine Kept.trans ?_ (hlinks _ _ _)
  exact hrel.trans kept_returnRelations

theorem kept_chooseParam {replay chosen : Bool}
    (h : tb.chooseParam cfg iid replay = some (chosen, tb')) : Kept PAEvent.bare tb tb' := by
  unfold chooseParam at h
  dsimp only at h
  split_ifs at h
  · obtain ⟨ps, -, hps⟩ := Option.map_eq_some_iff.mp h
    cases hlast : (selectParams (tb.getEvt iid) ps).getLast? with
    | none =>
      rw [hlast] at hps
      cases hps
      exact .modifyEvt fun _ => rfl
    | some P =>
      rw [hlast] at hps
      cases hps
      exact .modifyEvt fun _ => rfl
  · cases h
    exact .refl tb

theorem kept_commitByte {BC : ByteAccess × Choice} (h : commitByte iid tb BC = some tb') :
    Kept PAEvent.bare tb tb' := by
  obtain ⟨m, -, rfl⟩ := Option.map_eq_some_iff.mp h
  exact ⟨⟨rfl, fun _ => rfl, fun _ _ => rfl⟩, rfl, rfl, rfl, rfl⟩

theorem kept_commitBytes {l : List (ByteAccess × Choice)}
    (h : l.foldlM (commitByte iid) tb = some tb') : Kept PAEvent.bare tb tb' := by
  induction l generalizing tb with
  | nil =>
    cases h
    exact .refl _
  | cons BC l ih =>
    rw [List.foldlM_cons] at h
    obtain ⟨tb₁, hbyte, h⟩ := Option.bind_eq_some_iff.mp h
    exact (kept_commitByte hbyte).trans (ih h)

theorem kept_commitMem (h : tb.commitMem iid = some tb') : Kept PAEvent.bare tb tb' := by
  unfold commitMem at h
  dsimp only at h
  split_ifs at h
  exact kept_commitBytes h

theorem kept_detectRwConflicts : Kept PAEvent.core tb (tb.detectRwConflicts cfg iid) := by
  refine Kept.foldl (fun tb r => ?_) _ _
  unfold addRaceBranch
  dsimp only
  split_ifs
  · exact .modifyEvt fun _ => rfl
  · exact .refl tb

/-! ## A commit -/

/-- The event is marked as committed, and no longer counted. -/
def markCommitted (tb : TB) (iid : IID) : TB :=
  let tb := tb.modifyEvt iid fun evt => { evt with committed := true }
  { tb with
    uncommittedNonblockingCount := if (tb.getEvt iid).hasLoadReq then
      tb.uncommittedNonblockingCount else tb.uncommittedNonblockingCount - 1 }

@[simp] theorem execPrefix_markCommitted (tb : TB) (iid : IID) :
    (tb.markCommitted iid).execPrefix = tb.execPrefix := rfl

/-- The states of a commit that finds a parameter. -/
structure Commits (cfg : Config) (tb : TB) (iid : IID) (replay : Bool)
    (tb₁ tb₂ tb₃ : TB) : Prop where
  choose : tb.chooseParam cfg iid replay = some (true, tb₁)
  setup : tb₁.setupRelations cfg iid = some tb₂
  mem : tb₂.commitMem iid = some tb₃

theorem Commits.kept {replay : Bool} {tb₁ tb₂ tb₃ : TB}
    (h : Commits cfg tb iid replay tb₁ tb₂ tb₃) :
    Kept PAEvent.core tb (tb₃.detectRwConflicts cfg iid) :=
  ((kept_chooseParam h.choose).trans ((kept_setupRelations h.setup).trans
    (kept_commitMem h.mem))).core.trans kept_detectRwConflicts

/-- A commit marks the event, or it finds no parameter. -/
theorem commit_cases {replay : Bool} {values : Option (List (List UInt8))}
    (h : tb.commit cfg iid replay = some (values, tb')) :
    (∃ tb₁, values = none ∧ tb.chooseParam cfg iid replay = some (false, tb₁) ∧
      tb' = tb₁.detectRwConflicts cfg iid) ∨
    ∃ tb₁ tb₂ tb₃, values.isSome = true ∧ Commits cfg tb iid replay tb₁ tb₂ tb₃ ∧
      tb' = (tb₃.detectRwConflicts cfg iid).markCommitted iid := by
  unfold commit at h
  obtain ⟨⟨chosen, tb₁⟩, hchoose, h⟩ := Option.bind_eq_some_iff.mp h
  cases chosen with
  | true =>
    obtain ⟨tb₂, hsetup, h⟩ := Option.bind_eq_some_iff.mp h
    obtain ⟨tb₃, hmem, h⟩ := Option.bind_eq_some_iff.mp h
    cases h
    exact .inr ⟨tb₁, tb₂, tb₃, rfl, ⟨hchoose, hsetup, hmem⟩, rfl⟩
  | false =>
    cases h
    exact .inl ⟨tb₁, rfl, hchoose, rfl⟩

/-! ## Scheduling -/

/-- What `committable` has checked. -/
structure Committable (tb : TB) (iid : IID) : Prop where
  uncommitted : (tb.getEvt iid).committed = false
  known : (tb.getEvt iid).allAddrAndDataKnown = true
  deps : tb.DepsCommitted iid
  addrKnown : iid.idx ≤ (tb.thread iid.pid).addrKnownPrefix
  sync : (tb.getEvt iid).syncIdxBefore ≤ (tb.thread iid.pid).committedPrefix
  lwsync : (tb.getEvt iid).lwsyncIdxBefore ≤ (tb.thread iid.pid).committedPrefix

theorem committable_true (h : tb.committable cfg iid = some (true, tb')) :
    tb.Committable iid := by
  unfold committable at h
  dsimp only at h
  split_ifs at h with hout hdeps hwait
  · cases h
  · cases h
  · rw [not_or, Bool.not_eq_true, not_not] at hout
    exact ⟨hout.1, hout.2, hdeps, by omega, by omega, by omega⟩

/-- `schedule` tries to commit the event. -/
def Tried (tb : TB) (e : IID) : Prop :=
  e ∈ tb.candidates ∨ tb.schedCount < tb.execPrefix.length ∧ e = tb.prefixAt tb.schedCount

/-- `e` is committed in `tb₀`, and this gives `tb'`. -/
def Committing (cfg : Config) (tb₀ : TB) (e : IID) (tb' : TB) : Prop :=
  ∃ tb₁ tb₂ replay values execPrefix, tb₀.committable cfg e = some (true, tb₁) ∧
    tb₁.commit cfg e replay = some (some values, tb₂) ∧
    (execPrefix = tb₂.execPrefix ∨ execPrefix = tb₂.execPrefix ++ [e]) ∧
    tb' = { tb₂.updateCommittedPrefix e.pid with
      execPrefix, schedCount := (tb₂.updateCommittedPrefix e.pid).schedCount + 1 }

section Schedule

variable {I : TB → Prop} {s : Scheduled}

/-- What each attempt keeps holds when an event is committed, or when none is. -/
theorem scheduleNew_cases {es : List IID}
    (hskip : ∀ tb e ok tb', e ∈ es → I tb → tb.committable cfg e = some (ok, tb') → I tb')
    (hfail : ∀ tb e tb', e ∈ es → I tb → tb.commit cfg e false = some (none, tb') → I tb')
    (hI : I tb) (h : scheduleNew cfg es tb = some (s, tb')) :
    (s = none ∧ I tb') ∨ ∃ e ∈ es, ∃ tb₀, I tb₀ ∧ Committing cfg tb₀ e tb' := by
  induction es generalizing tb with
  | nil =>
    cases h
    exact .inl ⟨rfl, hI⟩
  | cons e es ih =>
    have hrest : ∀ tb₁, I tb₁ → scheduleNew cfg es tb₁ = some (s, tb') →
        (s = none ∧ I tb') ∨ ∃ e' ∈ e :: es, ∃ tb₀, I tb₀ ∧ Committing cfg tb₀ e' tb' := by
      intro tb₁ hI₁ h₁
      rcases ih (fun tb e' ok tb' he' => hskip tb e' ok tb' (List.mem_cons_of_mem e he'))
        (fun tb e' tb' he' => hfail tb e' tb' (List.mem_cons_of_mem e he')) hI₁ h₁ with
        hnone | ⟨e', he', hcommit⟩
      · exact .inl hnone
      · exact .inr ⟨e', List.mem_cons_of_mem e he', hcommit⟩
    unfold scheduleNew at h
    obtain ⟨⟨ok, tb₁⟩, hok, h⟩ := Option.bind_eq_some_iff.mp h
    have hI₁ := hskip tb e ok tb₁ List.mem_cons_self hI hok
    cases ok with
    | true =>
      obtain ⟨⟨values, tb₂⟩, hcommit, h⟩ := Option.bind_eq_some_iff.mp h
      cases values with
      | some values =>
        cases h
        exact .inr ⟨e, List.mem_cons_self, tb, hI,
          ⟨tb₁, tb₂, false, values, _, hok, hcommit, .inr rfl, rfl⟩⟩
      | none => exact hrest tb₂ (hfail tb₁ e tb₂ List.mem_cons_self hI₁ hcommit) h
    | false => exact hrest tb₁ hI₁ h

theorem schedule_cases
    (hskip : ∀ tb₀ e ok tb', tb.Tried e → I tb₀ → tb₀.committable cfg e = some (ok, tb') → I tb')
    (hfail : ∀ tb₀ e replay tb', tb.Tried e → I tb₀ →
      tb₀.commit cfg e replay = some (none, tb') → I tb')
    (hI : I tb) (h : tb.schedule cfg = some (s, tb')) :
    (s = none ∧ I tb') ∨ ∃ e tb₀, tb.Tried e ∧ I tb₀ ∧ Committing cfg tb₀ e tb' := by
  unfold schedule at h
  split_ifs at h with habort hpre
  · cases h
    exact .inl ⟨rfl, hI⟩
  · have htried : tb.Tried (tb.prefixAt tb.schedCount) := .inr ⟨hpre, rfl⟩
    obtain ⟨⟨ok, tb₁⟩, hok, h⟩ := Option.bind_eq_some_iff.mp h
    cases ok with
    | true =>
      obtain ⟨⟨values, tb₂⟩, hcommit, h⟩ := Option.bind_eq_some_iff.mp h
      cases values with
      | some values =>
        cases h
        exact .inr ⟨_, tb, htried, hI, ⟨tb₁, tb₂, true, values, _, hok, hcommit, .inl rfl, rfl⟩⟩
      | none =>
        cases h
        exact .inl ⟨rfl, hfail tb₁ _ true _ htried (hskip tb _ true tb₁ htried hI hok) hcommit⟩
    | false => cases h
  · rcases scheduleNew_cases (fun tb₀ e ok tb' he => hskip tb₀ e ok tb' (.inl he))
      (fun tb₀ e tb' he => hfail tb₀ e false tb' (.inl he)) hI h with
      hnone | ⟨e, he, tb₀, hI₀, hcommit⟩
    · exact .inl hnone
    · exact .inr ⟨e, tb₀, .inl he, hI₀, hcommit⟩

end Schedule

end TB

end ViEqui.Power
