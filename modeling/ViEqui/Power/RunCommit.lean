import ViEqui.Power.RunInv

/-!
# Commits and new computations in a run

`Shape` and `Indexed` hold after each attempt of `schedule`, after a commit, and after
`replay` and `reset`; so they hold in every run.
-/

namespace ViEqui.Power

open GetD VecSet

/-! ## Branches -/

theorem mem_insertBranch {A B : Branch} {L : List Branch} (h : A ∈ insertBranch B L) :
    A = B ∨ A ∈ L := by
  induction L with
  | nil => exact .inl (List.mem_singleton.mp h)
  | cons C L ih =>
    unfold insertBranch at h
    split_ifs at h
    · exact List.mem_cons.mp h
    · rcases List.mem_cons.mp h with rfl | h
      · exact .inr List.mem_cons_self
      · exact (ih h).imp_right (List.mem_cons_of_mem C)
    · exact .inr h

/-- No event of the branch is the null event. -/
def Branch.Indexed (B : Branch) : Prop := ∀ e ∈ B.order, 0 < e.idx

theorem Branch.indexed_iff {B : Branch} : B.Indexed ↔ ∀ P ∈ B.branch, 0 < P.iid.idx := by
  unfold Branch.Indexed Branch.order
  rw [List.forall_mem_map]

namespace TB

variable {cfg : Config} {tb tb' tb'' : TB} {iid e w r : IID} {p i q j proc : Nat}

theorem perm_order_normaliseBranch (B : Branch) :
    (tb.normaliseBranch B).order.Perm B.order := by
  rw [order_normaliseBranch, order_eq B]
  refine List.Perm.append_right _ ?_
  refine (List.reverse_perm _).trans ((List.perm_insertionSort _ _).trans ?_)
  exact List.reverse_perm _

theorem prefixAt_mem (h : i < tb.execPrefix.length) : tb.prefixAt i ∈ tb.execPrefix := by
  rw [prefixAt, List.getD_eq_getElem _ _ h]
  exact List.getElem_mem h

theorem keptEvents_mem {P : PEvent} (h : P ∈ tb.keptEvents cfg w r) :
    P.iid ∈ tb.execPrefix := by
  unfold keptEvents at h
  have hgen : ∀ (l : List IID) (acc : List PEvent × List IID),
      P ∈ (l.foldl (tb.branchStep cfg w r) acc).1 → P ∈ acc.1 ∨ P.iid ∈ l := by
    intro l
    induction l with
    | nil => exact fun acc hP => .inl hP
    | cons e l ih =>
      intro acc hP
      rcases ih _ hP with hP | hP
      · unfold branchStep at hP
        split_ifs at hP
        · rcases List.mem_append.mp hP with hP | hP
          · exact .inl hP
          · rw [List.mem_singleton.mp hP]
            exact .inr List.mem_cons_self
        · exact .inl hP
        · exact .inl hP
      · exact .inr (List.mem_cons_of_mem e hP)
  rcases hgen _ _ h with h | h
  · exact absurd h List.not_mem_nil
  · exact List.mem_of_mem_take (List.mem_of_mem_drop h)

theorem Indexed.raceBranch (h : Indexed tb) (hw : 0 < w.idx) (hr : 0 < r.idx) :
    (tb.raceBranch cfg w r).Indexed := by
  intro e he
  have he' := (perm_order_normaliseBranch _).mem_iff.mp he
  obtain ⟨P, hP, rfl⟩ := List.mem_map.mp he'
  have hkept : ∀ P ∈ tb.keptEvents cfg w r, 0 < P.iid.idx :=
    fun P hP => h.execPrefix _ (keptEvents_mem hP)
  unfold rawBranch at hP
  split_ifs at hP
  · rcases List.mem_append.mp hP with hP | hP
    · exact hkept P hP
    · rw [List.mem_singleton.mp hP]
      exact hw
  · rcases List.mem_append.mp hP with hP | hP
    · exact hkept P hP
    · rcases List.mem_cons.mp hP with rfl | hP
      · exact hw
      · rw [List.mem_singleton.mp hP]
        exact hr

theorem Indexed.addRaceBranch (h : Indexed tb) (hw : 0 < w.idx) (hr : 0 < r.idx) :
    Indexed (addRaceBranch cfg w tb r) := by
  unfold TB.addRaceBranch
  dsimp only
  split_ifs
  · refine ⟨h.execPrefix, h.loads, fun p i B hB => ?_⟩
    rw [modifyEvt, fchAt_modifyFch] at hB
    split_ifs at hB
    · rcases mem_insertBranch hB with rfl | hB
      · exact Branch.indexed_iff.mp (h.raceBranch hw hr)
      · exact h.branches _ _ B hB
    · exact h.branches p i B hB
  · exact h

theorem Indexed.detectRwConflicts (h : Indexed tb) (hw : 0 < w.idx) :
    Indexed (tb.detectRwConflicts cfg w) := by
  have hconflicts : ∀ r ∈ (tb.conflicts cfg w).vec, 0 < r.idx := by
    intro r hr
    obtain ⟨hr, -⟩ := List.mem_filter.mp (mem_ofList.mp (mem_vec.mp hr))
    obtain ⟨A, -, hr⟩ := List.mem_flatMap.mp hr
    obtain ⟨L, hL, hr⟩ := List.mem_flatMap.mp hr
    exact h.loads A.addr L hL r hr
  unfold TB.detectRwConflicts
  generalize (tb.conflicts cfg w).vec = l at hconflicts ⊢
  induction l generalizing tb with
  | nil => exact h
  | cons r l ih =>
    rw [List.forall_mem_cons] at hconflicts
    exact ih (h.addRaceBranch hw hconflicts.1) hconflicts.2

/-! ## The memory -/

theorem foldl_mem {α : Type} {f : TB → α → TB} (hf : ∀ tb a, (f tb a).mem = tb.mem)
    (l : List α) (tb : TB) : (l.foldl f tb).mem = tb.mem := by
  induction l generalizing tb with
  | nil => rfl
  | cons a l ih => exact (ih _).trans (hf tb a)

theorem mem_modifyRel (r : RelField) (f : Rel → Rel) : (tb.modifyRel r e f).mem = tb.mem := rfl

theorem mem_link (r : RelField) (ab : IID × IID) : (link r tb ab).mem = tb.mem := rfl

theorem mem_returnRelations : (tb.returnRelations iid).mem = tb.mem := by
  have hmodify : ∀ (r : RelField) (f : Rel → Rel) (l : List IID) (tb : TB),
      (l.foldl (fun tb e => tb.modifyRel r e f) tb).mem = tb.mem :=
    fun r f => foldl_mem fun tb e => mem_modifyRel r f
  exact foldl_mem (fun tb r => (hmodify r _ _ _).trans (hmodify r _ _ _)) relFields tb

theorem mem_setupRelations (h : tb.setupRelations cfg iid = some tb') : tb'.mem = tb.mem := by
  unfold setupRelations at h
  dsimp only at h
  split_ifs at h
  cases h
  have hlinks : ∀ (r : RelField) (l : List (IID × IID)) (tb : TB),
      (l.foldl (link r) tb).mem = tb.mem := fun r => foldl_mem fun tb ab => mem_link r ab
  show (List.foldl (link _) (List.foldl (link _) _ _) _).mem = tb.mem
  rw [hlinks, hlinks, mem_returnRelations]
  rfl

theorem mem_chooseParam {replay chosen : Bool}
    (h : tb.chooseParam cfg iid replay = some (chosen, tb')) : tb'.mem = tb.mem := by
  unfold chooseParam at h
  dsimp only at h
  split_ifs at h
  · obtain ⟨ps, -, hps⟩ := Option.map_eq_some_iff.mp h
    cases hlast : (selectParams (tb.getEvt iid) ps).getLast? with
    | none =>
      rw [hlast] at hps
      cases hps
      rfl
    | some P =>
      rw [hlast] at hps
      cases hps
      rfl
  · cases h
    rfl

theorem mem_committable {ok : Bool} (h : tb.committable cfg iid = some (ok, tb')) :
    tb'.mem = tb.mem := by
  have hcompute : (tb.computePolocBwd iid).mem = tb.mem := by
    unfold computePolocBwd
    dsimp only
    split_ifs <;> rfl
  unfold committable at h
  dsimp only at h
  split_ifs at h
  · cases h
    rfl
  · cases h
    rfl
  · cases hm : cfg.model with
    | arm =>
      rw [hm] at h
      cases h
      rfl
    | power =>
      rw [hm] at h
      cases h
      exact hcompute

/-- The loads of a byte after a commit are those before it, and the event. -/
theorem mem_commit_loads {m m' : Mem} {A : ByteAccess} {C : Choice}
    (h : m.commit iid A C = some m') {L : VecSet IID} (hL : L ∈ m'.loads) (he : e ∈ L) :
    e = iid ∨ ∃ L' ∈ m.loads, e ∈ L' := by
  have hmodify : ∀ k, L ∈ m.loads.modify k (fun L => L.insert iid) →
      e = iid ∨ ∃ L' ∈ m.loads, e ∈ L' := by
    intro k hL
    obtain ⟨i, hi, rfl⟩ := List.mem_iff_getElem.mp hL
    rw [List.length_modify] at hi
    rw [List.getElem_modify] at he
    split_ifs at he
    · exact (mem_insert.mp he).imp_right fun he => ⟨_, List.getElem_mem hi, he⟩
    · exact .inr ⟨_, List.getElem_mem hi, he⟩
  unfold Mem.commit at h
  cases htype : A.type with
  | store =>
    rw [htype] at h
    dsimp only at h
    split_ifs at h with hpos
    cases h
    rcases List.eq_or_mem_of_mem_insertIdx hL with rfl | hL
    · exact absurd he (not_mem_empty e)
    · exact .inr ⟨L, hL, he⟩
  | load =>
    rw [htype] at h
    dsimp only at h
    split_ifs at h
    · cases h
      exact hmodify 0 hL
    · cases h
      exact hmodify _ hL

theorem Indexed.commitBytes {l : List (ByteAccess × Choice)} (h : Indexed tb) (hi : 0 < iid.idx)
    (hl : l.foldlM (commitByte iid) tb = some tb') : Indexed tb' := by
  induction l generalizing tb with
  | nil =>
    cases hl
    exact h
  | cons BC l ih =>
    rw [List.foldlM_cons] at hl
    obtain ⟨tb₁, hbyte, hl⟩ := Option.bind_eq_some_iff.mp hl
    obtain ⟨m, hm, rfl⟩ := Option.map_eq_some_iff.mp hbyte
    have hbyte' : Indexed { tb with mem := Function.update tb.mem BC.1.addr m } := by
      refine ⟨h.execPrefix, fun p L hL e he => ?_, h.branches⟩
      change L ∈ (Function.update tb.mem BC.1.addr m p).loads at hL
      by_cases hp : p = BC.1.addr
      · subst hp
        rw [Function.update_self] at hL
        rcases mem_commit_loads hm hL he with rfl | ⟨L', hL', he⟩
        · exact hi
        · exact h.loads _ L' hL' e he
      · rw [Function.update_of_ne hp] at hL
        exact h.loads p L hL e he
    exact ih hbyte' hl

/-! ## Attempts and commits -/

theorem Kept.newBranches (h : Kept PAEvent.bare tb tb') :
    SameEvts PAEvent.newBranches tb tb' :=
  h.toSameEvts.map PAEvent.newBranches

theorem Indexed.kept (h : Indexed tb) (hk : Kept PAEvent.bare tb tb') (hm : tb'.mem = tb.mem) :
    Indexed tb' :=
  h.of_same hk.execPrefix hm hk.newBranches

theorem Shape.kept (h : Shape tb) (hk : Kept PAEvent.core tb tb') : Shape tb' :=
  h.of_same (.of_threads hk.threads) (hk.toSameEvts.map PAEvent.status)

theorem Indexed.committable {ok : Bool} (h : Indexed tb)
    (hc : tb.committable cfg iid = some (ok, tb')) : Indexed tb' :=
  h.kept (kept_committable hc) (mem_committable hc)

/-- The state in which a commit looks for races. -/
theorem Indexed.commits {replay : Bool} {tb₁ tb₂ tb₃ : TB} (h : Indexed tb) (hi : 0 < iid.idx)
    (hc : Commits cfg tb iid replay tb₁ tb₂ tb₃) : Indexed (tb₃.detectRwConflicts cfg iid) := by
  have h₁ := h.kept (kept_chooseParam hc.choose) (mem_chooseParam hc.choose)
  have h₂ := h₁.kept (kept_setupRelations hc.setup) (mem_setupRelations hc.setup)
  have hmem := hc.mem
  unfold commitMem at hmem
  dsimp only at hmem
  split_ifs at hmem
  exact (h₂.commitBytes hi hmem).detectRwConflicts hi

/-- `e` is committed: its core is marked, and the other cores are the same. -/
structure Marks (tb : TB) (e : IID) (tb' : TB) : Prop where
  fch : tb'.fch.length = tb.fch.length
  length : ∀ p, (tb'.evtsOf p).length = (tb.evtsOf p).length
  evt : ∀ p i, (tb'.fchAt p i).core = if p = e.pid ∧ i = e.idx - 1 then
    { (tb.fchAt p i).core with committed := true } else (tb.fchAt p i).core
  threads : tb'.threads.length = tb.threads.length
  thread : ∀ p, ∃ k, tb'.thread p = { tb.thread p with committedPrefix := k }
  count : tb'.uncommittedNonblockingCount = if (tb.getEvt e).hasLoadReq then
    tb.uncommittedNonblockingCount else tb.uncommittedNonblockingCount - 1
  execPrefix : tb'.execPrefix = tb.execPrefix ∨ tb'.execPrefix = tb.execPrefix ++ [e]
  schedCount : tb'.schedCount = tb.schedCount + 1

theorem Kept.marks (h : Kept PAEvent.core tb tb') (he : e.idx - 1 < (tb.evtsOf e.pid).length) :
    let marked := (tb'.markCommitted e).updateCommittedPrefix e.pid
    ∀ execPrefix, execPrefix = tb'.execPrefix ∨ execPrefix = tb'.execPrefix ++ [e] →
    Marks tb e { marked with execPrefix, schedCount := marked.schedCount + 1 } := by
  intro marked execPrefix hpre
  have hlen : e.idx - 1 < (tb'.evtsOf e.pid).length := by rwa [h.length]
  have hevt : ∀ p i, marked.fchAt p i = if p = e.pid ∧ i = e.idx - 1 ∧
      e.idx - 1 < (tb'.evtsOf e.pid).length then
      { tb'.fchAt e.pid (e.idx - 1) with committed := true } else tb'.fchAt p i :=
    fun p i => fchAt_modifyFch _ _ p i _
  have hself : (tb'.modifyEvt e fun evt => { evt with committed := true }).getEvt e =
      { tb'.getEvt e with committed := true } := by
    show (tb'.modifyFch _ _ _).fchAt _ _ = _
    rw [fchAt_modifyFch, if_pos ⟨rfl, rfl, hlen⟩]
    rfl
  refine ⟨?_, fun p => ?_, fun p i => ?_, ?_, fun p => ?_, ?_, ?_, ?_⟩
  · exact (List.length_modify _ _ _).trans h.fch
  · exact (length_evtsOf_modifyFch _ _ p _).trans (h.length p)
  · show (marked.fchAt p i).core = _
    rw [hevt]
    by_cases hpi : p = e.pid ∧ i = e.idx - 1
    · rw [if_pos ⟨hpi.1, hpi.2, hlen⟩, if_pos hpi, ← h.evt p i, hpi.1, hpi.2]
      rfl
    · rw [if_neg fun h' => hpi ⟨h'.1, h'.2.1⟩, if_neg hpi, h.evt]
  · exact (List.length_modify _ _ _).trans (congrArg List.length h.threads)
  · have hthread : ∃ k, marked.thread p = if p = e.pid ∧ e.pid < tb'.threads.length then
        { tb'.thread e.pid with committedPrefix := k } else tb'.thread p :=
      ⟨_, thread_modifyThread _ p _⟩
    obtain ⟨k, hthread⟩ := hthread
    show ∃ k, marked.thread p = _
    rw [hthread]
    split_ifs with hp
    · rw [h.thread, hp.1]
      exact ⟨_, rfl⟩
    · rw [h.thread]
      exact ⟨_, rfl⟩
  · show (if ((tb'.modifyEvt e fun evt => { evt with committed := true }).getEvt e).hasLoadReq
      then tb'.uncommittedNonblockingCount else tb'.uncommittedNonblockingCount - 1) = _
    have hreq := congrArg PAEvent.hasLoadReq (h.evt e.pid (e.idx - 1))
    simp only [PAEvent.core_hasLoadReq] at hreq
    have hreq' : (tb'.getEvt e).hasLoadReq = (tb.getEvt e).hasLoadReq := hreq
    rw [hself, h.count, ← hreq']
    rfl
  · rw [h.execPrefix] at hpre
    exact hpre
  · exact congrArg (· + 1) h.schedCount

/-- An event that `schedule` tries is not the null event. -/
theorem Indexed.tried (h : Indexed tb) (he : tb.Tried e) : 0 < e.idx := by
  rcases he with he | ⟨hlt, rfl⟩
  · obtain ⟨p, -, he⟩ := List.mem_flatMap.mp he
    obtain ⟨i, -, rfl⟩ := List.mem_map.mp he
    exact Nat.succ_pos i
  · exact h.execPrefix _ (prefixAt_mem hlt)

/-- An event that can be committed is fetched. -/
theorem Shape.mem_fetched (h : Shape tb) (he : 0 < e.idx) (hc : tb.Committable e) :
    e ∈ tb.fetched := by
  have hle := hc.addrKnown
  have hcount := h.addrKnown e.pid
  have hlt : e.idx - 1 < (tb.thread e.pid).fchCount := by omega
  exact TB.mem_fetched.mpr ⟨lt_threads_of_fchCount hlt, he, by omega⟩

theorem Shape.lt_length (h : Shape tb) (he : e ∈ tb.fetched) :
    e.idx - 1 < (tb.evtsOf e.pid).length := by
  have hle := h.fetched e.pid
  have hfetched := TB.mem_fetched.mp he
  omega

theorem Shape.marks (h : Shape tb) (he : e ∈ tb.fetched) (hm : Marks tb e tb') :
    Shape tb' where
  pos := by
    rw [hm.threads]
    exact h.pos
  fch := by
    rw [hm.threads, hm.fch]
    exact h.fch
  fetched p := by
    obtain ⟨k, hk⟩ := hm.thread p
    rw [hk, hm.length]
    exact h.fetched p
  addrKnown p := by
    obtain ⟨k, hk⟩ := hm.thread p
    rw [hk]
    exact h.addrKnown p
  unfetched p i hi hs := by
    obtain ⟨k, hk⟩ := hm.thread p
    rw [hk] at hi
    have hfetched := TB.mem_fetched.mp he
    have hcore := hm.evt p i
    rw [if_neg (by rintro ⟨rfl, rfl⟩; dsimp only at hi; omega)] at hcore
    have hcommitted := congrArg PAEvent.committed hcore
    have hfilled := congrArg PAEvent.filledStatus hcore
    simp only [PAEvent.core_committed, PAEvent.core_filledStatus] at hcommitted hfilled
    rw [hcommitted]
    rw [hfilled] at hs
    exact h.unfetched p i hi hs

/-- A commit in a run. -/
theorem committing_marks (h : Shape tb) (hi : Indexed tb) (he : 0 < e.idx)
    (hc : Committing cfg tb e tb') :
    tb.Committable e ∧ e ∈ tb.fetched ∧ Marks tb e tb' ∧ Indexed tb' := by
  obtain ⟨tb₁, tb₂, replay, values, execPrefix, hok, hcommit, hpre, rfl⟩ := hc
  have hcommittable := committable_true hok
  have hfetched := h.mem_fetched he hcommittable
  have hkept := kept_committable hok
  rcases commit_cases hcommit with ⟨tb₃, hnone, -⟩ | ⟨tb₃, tb₄, tb₅, -, hcommits, rfl⟩
  · cases hnone
  · have hmarks := (hkept.core.trans hcommits.kept).marks (h.lt_length hfetched)
    have hindexed := (hi.committable hok).commits he hcommits
    rw [execPrefix_markCommitted] at hpre
    refine ⟨hcommittable, hfetched, hmarks execPrefix hpre, ⟨?_, hindexed.loads, ?_⟩⟩
    · rcases hpre with rfl | rfl
      · exact hindexed.execPrefix
      · intro e' he'
        rcases List.mem_append.mp he' with he' | he'
        · exact hindexed.execPrefix e' he'
        · rw [List.mem_singleton.mp he']
          exact he
    · intro p i B hB
      have hsame : SameEvts PAEvent.newBranches (tb₅.detectRwConflicts cfg e)
          ((tb₅.detectRwConflicts cfg e).modifyEvt e fun evt => { evt with committed := true }) :=
        .modifyEvt fun _ => rfl
      have hsame' : (((tb₅.detectRwConflicts cfg e).modifyEvt e fun evt =>
          { evt with committed := true }).fchAt p i).newBranches = _ := hsame.evt p i
      exact hindexed.branches p i B (hsame' ▸ hB)

end TB

end ViEqui.Power
