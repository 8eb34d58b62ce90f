import ViEqui.RfscExploration
import ViEqui.RfscClocks
import ViEqui.Lib.SortedWindow

/-!
# The window of visible writes

For a load, `compute_prefixes` looks at the stores of each thread to its
address, and cuts out a window with two searches, one with the clock above the
load and one with the clock of its future.

* `calledWrites`: the writes that `try_read_from` is called for.
* `Visible`: the writes that happens-before leaves for a load.
* `calledWrites_eq`: the rounds in front of a load do not move its windows.
* `mem_visibleWrites_iff`: the window of a thread.
* `WindowCovers`: the condition under which no visible write is lost.  A store
  that is the last instruction of its thread is on the border of the window,
  and so is the load itself when it writes.
-/

namespace ViEqui.Rfsc

open AssocMap

namespace RFSCTraceBuilder

variable {Λ : Type}

/-! ## The calls -/

/-- The loop of `tryWrites`, with the writes that it calls `try_read_from`
for. -/
def tryWritesLog (env : Env Λ) (tables : Tables) (i : Nat) (addr : SymAddr)
    (originalReadFrom : Int) (decision : DecisionNode) (s : RFSCTraceBuilder Λ) :
    RFSCTraceBuilder Λ × List Nat :=
  (List.range s.threads.length).foldl
    (fun (s, log) p =>
      let writes := s.visibleWrites tables i addr p
      (writes.foldl
        (fun s (w : Nat) => s.tryReadFrom env i addr originalReadFrom decision w) s,
        log ++ writes)) (s, [])

/-- The writes that `compute_prefixes` calls `try_read_from` for in the round
of `i`. -/
def calledWrites (env : Env Λ) (s : RFSCTraceBuilder Λ) (i : Nat) : List Nat :=
  let tables := s.collectTables
  let s := s.computePrefixesUpTo env i
  if (s.ev i).pinned then []
  else if (s.ev i).sym.isLockType then []
  else if (s.ev i).sym.isLoad then
    let addr := addrOf (s.getAddr i)
    let s := s.touch addr
    (s.tryWritesLog env tables i addr (s.readFromOf i) (s.decisionOf i)).2
  else []

/-- The log is about the loop of the model. -/
theorem tryWritesLog_fst (env : Env Λ) (tables : Tables) (i : Nat) (addr : SymAddr)
    (originalReadFrom : Int) (decision : DecisionNode) (s : RFSCTraceBuilder Λ) :
    (s.tryWritesLog env tables i addr originalReadFrom decision).1 =
      s.tryWrites env tables i addr originalReadFrom decision := by
  have hlist : ∀ (ps : List Nat) (s : RFSCTraceBuilder Λ) (log : List Nat),
      (ps.foldl (fun (s, log) p =>
        let writes := s.visibleWrites tables i addr p
        (writes.foldl
          (fun s (w : Nat) => s.tryReadFrom env i addr originalReadFrom decision w) s,
          log ++ writes)) (s, log)).1 =
      ps.foldl (fun s p => (s.visibleWrites tables i addr p).foldl
        (fun s (w : Nat) => s.tryReadFrom env i addr originalReadFrom decision w) s) s := by
    intro ps
    induction ps with
    | nil => exact fun _ _ => rfl
    | cons p ps ih => exact fun s log => ih _ _
  exact hlist _ s []

/-! ## What the windows depend on -/

/-- What the windows look at is the same. -/
structure SameWindows (u t : RFSCTraceBuilder Λ) : Prop where
  length : u.prefixEvents.length = t.prefixEvents.length
  events : ∀ k < t.prefixEvents.length, (u.ev k).iid = (t.ev k).iid ∧
    (u.ev k).pinned = (t.ev k).pinned ∧ (u.ev k).sym = (t.ev k).sym ∧
    (u.ev k).aboveClock = (t.ev k).aboveClock
  threads : u.threads = t.threads
  belowClocks : u.belowClocks = t.belowClocks
  prefixIdx : u.prefixIdx = t.prefixIdx
  mutexDeadlocks : u.mutexDeadlocks = t.mutexDeadlocks

theorem SameWindows.refl (s : RFSCTraceBuilder Λ) : SameWindows s s :=
  ⟨rfl, fun _ _ => ⟨rfl, rfl, rfl, rfl⟩, rfl, rfl, rfl, rfl⟩

theorem SameWindows.trans {s t u : RFSCTraceBuilder Λ} (h' : SameWindows u t)
    (h : SameWindows t s) : SameWindows u s where
  length := h'.length.trans h.length
  events k hk := by
    obtain ⟨hiid, hpinned, hsym, habove⟩ := h.events k hk
    obtain ⟨hiid', hpinned', hsym', habove'⟩ := h'.events k (h.length.symm ▸ hk)
    exact ⟨hiid'.trans hiid, hpinned'.trans hpinned, hsym'.trans hsym, habove'.trans habove⟩
  threads := h'.threads.trans h.threads
  belowClocks := h'.belowClocks.trans h.belowClocks
  prefixIdx := h'.prefixIdx.trans h.prefixIdx
  mutexDeadlocks := h'.mutexDeadlocks.trans h.mutexDeadlocks

theorem SameButReads.sameWindows {s t : RFSCTraceBuilder Λ} (h : SameButReads t s) :
    SameWindows t s where
  length := h.length
  events k hk := by
    obtain ⟨w, hw⟩ := h.events k hk
    rw [hw]
    exact ⟨rfl, rfl, rfl, rfl⟩
  threads := h.threads
  belowClocks := h.belowClocks
  prefixIdx := h.prefixIdx
  mutexDeadlocks := h.mutexDeadlocks

theorem sameWindows_modifyEvent (s : RFSCTraceBuilder Λ) (i : Nat) {f : Event → Event}
    (hf : ∀ e, (f e).iid = e.iid ∧ (f e).pinned = e.pinned ∧ (f e).sym = e.sym ∧
      (f e).aboveClock = e.aboveClock) : SameWindows (s.modifyEvent i f) s where
  length := length_modifyEvent s i f
  events k hk := by
    rw [ev_modifyEvent s i f hk]
    split
    · exact hf _
    · exact ⟨rfl, rfl, rfl, rfl⟩
  threads := rfl
  belowClocks := rfl
  prefixIdx := rfl
  mutexDeadlocks := rfl

/-- `compute_unfolding` gives unfolding events and decisions only. -/
theorem sameWindows_computeUnfolding (s : RFSCTraceBuilder Λ) (item : DecisionNode)
    (replayPoint : Nat) (ids : Nat → Nat) :
    SameWindows (s.computeUnfolding item replayPoint ids).1 s := by
  have hevent : ∀ (s : RFSCTraceBuilder Λ) (i : Nat) (unf : UnfoldingNode),
      SameWindows (s.setEvent i unf) s :=
    fun s i unf => s.sameWindows_modifyEvent i fun _ => ⟨rfl, rfl, rfl, rfl⟩
  have hround : ∀ (st : RFSCTraceBuilder Λ × DecisionNode) (i : Nat),
      SameWindows (unfoldEvent replayPoint ids st i).1 st.1 := by
    intro st i
    obtain ⟨s, deepest⟩ := st
    unfold unfoldEvent
    dsimp only
    split
    · exact hevent s i _
    · split
      · refine SameWindows.trans (sameWindows_modifyEvent _ i ?_) ?_
        · exact fun _ => ⟨rfl, rfl, rfl, rfl⟩
        · obtain ⟨hlen, hevents, hthreads, hbelow, hidx, hdead⟩ := hevent s i
            (.find (s.threads.getD (s.ev i).iid.pid default).cpid (s.parentEvent i)
              (s.eventOf (s.readFromOf i)))
          exact ⟨hlen, hevents, hthreads, hbelow, hidx, hdead⟩
      · exact hevent s i _
  have hlist : ∀ (is : List Nat) (st : RFSCTraceBuilder Λ × DecisionNode),
      SameWindows (is.foldl (unfoldEvent replayPoint ids) st).1 st.1 := by
    intro is
    induction is with
    | nil => exact fun st => .refl st.1
    | cons i is ih => exact fun st => (ih _).trans (hround st i)
  exact hlist _ (s, item)

theorem SameWindows.event {s t : RFSCTraceBuilder Λ} (h : SameWindows t s) (k : Nat) :
    (t.ev k).iid = (s.ev k).iid ∧ (t.ev k).pinned = (s.ev k).pinned ∧
      (t.ev k).sym = (s.ev k).sym ∧ (t.ev k).aboveClock = (s.ev k).aboveClock := by
  by_cases hk : k < s.prefixEvents.length
  · exact h.events k hk
  · have hlen := h.length
    have hs : s.ev k = default := by
      unfold ev
      rw [List.getD_eq_getElem?_getD, List.getElem?_eq_none (by omega)]
      rfl
    have ht : t.ev k = default := by
      unfold ev
      rw [List.getD_eq_getElem?_getD, List.getElem?_eq_none (by omega)]
      rfl
    rw [hs, ht]
    exact ⟨rfl, rfl, rfl, rfl⟩

theorem SameWindows.visibleWrites {s t : RFSCTraceBuilder Λ} (h : SameWindows t s)
    (tables : Tables) (i : Nat) (addr : SymAddr) (p : Nat) :
    t.visibleWrites tables i addr p = s.visibleWrites tables i addr p := by
  unfold RFSCTraceBuilder.visibleWrites
  simp only [fun k => (h.event k).1, fun k => (h.event k).2.2.1, fun k => (h.event k).2.2.2,
    h.belowClocks]

theorem SameWindows.getAddr {s t : RFSCTraceBuilder Λ} (h : SameWindows t s) (k : Nat) :
    t.getAddr k = s.getAddr k := by
  unfold RFSCTraceBuilder.getAddr
  rw [(h.event k).2.2.1]

theorem SameWindows.collectTables {s t : RFSCTraceBuilder Λ} (h : SameWindows t s) :
    t.collectTables = s.collectTables := by
  unfold RFSCTraceBuilder.collectTables
  simp only [fun k => (h.event k).1, fun k => (h.event k).2.2.1, h.getAddr, h.length, h.threads]

/-- The windows of all threads. -/
def windowOf (s : RFSCTraceBuilder Λ) (i : Nat) : List Nat :=
  (List.range s.threads.length).flatMap
    (s.visibleWrites s.collectTables i (addrOf (s.getAddr i)))

/-- The attempts with one thread do not move the windows of the next ones. -/
theorem tryWritesLog_snd (env : Env Λ) {tables : Tables} {s : RFSCTraceBuilder Λ} {i : Nat}
    {a : SymAddr} (o : Int) (decision : DecisionNode) (hfit : tables.Fit s)
    (hi : s.Candidate a i) : (s.tryWritesLog env tables i a o decision).2 =
      (List.range s.threads.length).flatMap (s.visibleWrites tables i a) := by
  have hlist : ∀ (ps : List Nat) (t : RFSCTraceBuilder Λ) (log : List Nat),
      OnlyReadFrom i t s → (ps.foldl (fun (s, log) p =>
        let writes := s.visibleWrites tables i a p
        (writes.foldl (fun s (w : Nat) => s.tryReadFrom env i a o decision w) s,
          log ++ writes)) (t, log)).2 =
      log ++ ps.flatMap (s.visibleWrites tables i a) := by
    intro ps
    induction ps with
    | nil => exact fun t log _ => (List.append_nil log).symm
    | cons p ps ih =>
      intro t log honly
      have hthread := onlyReadFrom_tryThread env o decision (t.visibleWrites tables i a p)
        (hi.of_onlyReadFrom honly) fun w hw =>
          (hfit.of_onlyReadFrom honly).writes a p w (mem_visibleWrites hw)
      rw [List.foldl_cons]
      dsimp only
      rw [ih _ _ (hthread.trans honly), honly.sameButReads.sameWindows.visibleWrites,
        List.flatMap_cons, List.append_assoc]
  exact hlist _ s [] ((Unchanged.refl s).onlyReadFrom i)

/-- The calls in the round of a load are those of the windows of the analysed
trace. -/
theorem calledWrites_eq (env : Env Λ) {s t : RFSCTraceBuilder Λ} (h : SameWindows t s)
    (hend : t.BlockedAtEnd) {i : Nat} (hi : i < s.prefixEvents.length)
    (hpinned : (s.ev i).pinned = false) (hlock : (s.ev i).sym.isLockType = false)
    (hload : (s.ev i).sym.isLoad) : t.calledWrites env i = s.windowOf i := by
  have hit : i < t.prefixEvents.length := h.length.symm ▸ hi
  obtain ⟨hsame, hinv⟩ := computePrefixesUpTo_spec env hend (Nat.le_of_lt hit)
  have hround : SameWindows (t.computePrefixesUpTo env i) s :=
    hsame.sameWindows.trans (show SameWindows (t.computePrefixesUpTo env 0) s from
      ⟨h.length, h.events, h.threads, h.belowClocks, h.prefixIdx,
        h.mutexDeadlocks⟩)
  have hir : i < (t.computePrefixesUpTo env i).prefixEvents.length := hsame.length.symm ▸ hit
  have hcandidate : (t.computePrefixesUpTo env i).Candidate
      (addrOf ((t.computePrefixesUpTo env i).getAddr i)) i :=
    ⟨hir, hinv.collected.listed i hir⟩
  have htouch := (unchanged_touch (t.computePrefixesUpTo env i)
    (addrOf ((t.computePrefixesUpTo env i).getAddr i))).onlyReadFrom i
  obtain ⟨_, hpinned', hsym, _⟩ := hround.event i
  unfold calledWrites windowOf
  dsimp only
  rw [hpinned', hsym, hpinned, hlock, hload, if_neg Bool.false_ne_true, if_neg Bool.false_ne_true,
    if_pos rfl, tryWritesLog_snd env _ _ (hinv.fit.of_onlyReadFrom htouch)
      (hcandidate.of_onlyReadFrom htouch)]
  have hwindows := htouch.sameButReads.sameWindows.trans hround
  rw [hwindows.threads, h.collectTables, hround.getAddr]
  refine congrArg (fun f => (List.range s.threads.length).flatMap f) (funext fun p => ?_)
  rw [← hround.getAddr]
  exact hwindows.visibleWrites _ i _ p

/-! ## The stores of a thread -/

theorem getD_foldl_modify_pushBack (p : Nat → Bool) (f : Nat → SymAddr) (t : Nat → Nat)
    (ks : List Nat) (ms : List (Map SymAddr (List Nat))) (a : SymAddr) {q : Nat}
    (hq : q < ms.length) :
    getD ((ks.foldl (fun ms j =>
      if p j then ms.modify (t j) fun m => pushBack m (f j) j else ms) ms).getD q []) a [] =
      getD (ms.getD q []) a [] ++ ks.filter (fun j => p j && t j = q && f j = a) := by
  induction ks generalizing ms with
  | nil => simp
  | cons j ks ih =>
    rw [List.foldl_cons]
    by_cases hp : p j
    · rw [if_pos hp, ih _ (by rwa [List.length_modify]), List.filter_cons]
      have hmodify : getD ((ms.modify (t j) fun m => pushBack m (f j) j).getD q []) a [] =
          getD (ms.getD q []) a [] ++ if t j = q ∧ f j = a then [j] else [] := by
        rw [List.getD_eq_getElem?_getD, List.getD_eq_getElem?_getD, List.getElem?_modify,
          List.getElem?_eq_getElem hq]
        show getD (if t j = q then pushBack ms[q] (f j) j else ms[q]) a [] =
          getD ms[q] a [] ++ _
        by_cases ht : t j = q
        · rw [if_pos ht, pushBack, getD_modify]
          by_cases ha : f j = a
          · simp [ht, ha]
          · simp [ha]
        · simp [ht]
      rw [hmodify]
      by_cases hboth : t j = q ∧ f j = a
      · simp [hp, hboth]
      · rw [if_neg hboth, if_neg (by simpa [hp] using hboth), List.append_nil]
    · rw [if_neg hp, ih ms hq, List.filter_cons, if_neg (by simp [hp])]

/-- The stores of thread `p` to an address. -/
def storesOf (s : RFSCTraceBuilder Λ) (p : Nat) (a : SymAddr) : List Nat :=
  (List.range s.prefixEvents.length).filter fun j =>
    (s.ev j).sym.isStore && (s.ev j).iid.pid = p && addrOf (s.getAddr j) = a

theorem collectTables_writes (s : RFSCTraceBuilder Λ) {p : Nat} (hp : p < s.threads.length)
    (a : SymAddr) :
    getD (s.collectTables.writesByProcessAndAddress.getD p []) a [] = s.storesOf p a := by
  have hstart : getD ((List.replicate s.threads.length ([] : Map SymAddr (List Nat))).getD p [])
      a [] = [] := by
    rw [List.getD_eq_getElem?_getD, List.getElem?_replicate, if_pos hp]
    rfl
  refine (getD_foldl_modify_pushBack (fun j => (s.ev j).sym.isStore)
    (fun j => addrOf (s.getAddr j)) (fun j => (s.ev j).iid.pid) _ _ a
    (by rwa [List.length_replicate])).trans ?_
  rw [hstart, List.nil_append]
  rfl

/-! ## The windows -/

/-- `w` is a store to the address of `i`. -/
structure StoreTo (s : RFSCTraceBuilder Λ) (i w : Nat) : Prop where
  lt : w < s.prefixEvents.length
  isStore : (s.ev w).sym.isStore
  addr : addrOf (s.getAddr w) = addrOf (s.getAddr i)

/-- Happens-before leaves the store `w` for the load `i`: `i` does not happen
before it, and no later store of its thread happens before `i` without the
read-from of `i`. -/
structure Visible (s : RFSCTraceBuilder Λ) (i w : Nat) : Prop where
  store : s.StoreTo i w
  ne : w ≠ i
  notAfter : ¬ Relation.TransGen s.Edge i w
  latest : ∀ w', s.StoreTo i w' → w' ≠ i → (s.ev w').iid.pid = (s.ev w).iid.pid → w < w' →
    ¬ s.AboveBefore w' i

/-- `w` is at or past the clock of the future of `i`: it does not happen before
`i` does, or it starts with the last instruction of its thread. -/
def Past (s : RFSCTraceBuilder Λ) (i w : Nat) : Prop :=
  Relation.ReflTransGen s.Edge i w ∨
    (s.ev w).iid.idx = (s.indicesOf (s.ev w).iid.pid).length

/-- The condition under which the windows of `i` lose no visible write. -/
structure WindowCovers (s : RFSCTraceBuilder Λ) (i : Nat) : Prop where
  own : (s.ev i).sym.isStore → ∀ w < i, s.StoreTo i w → (s.ev w).iid.pid ≠ (s.ev i).iid.pid
  last : ∀ w, s.StoreTo i w → (s.ev w).iid.pid ≠ (s.ev i).iid.pid →
    (s.ev w).iid.idx = (s.indicesOf (s.ev w).iid.pid).length →
    (∃ e, Relation.TransGen s.Edge i e ∧ (s.ev e).iid.pid = (s.ev w).iid.pid) ∨
      (s.ev i).sym.isStore ∧ (s.ev w).sym.isLoad

theorem mem_storesOf {s : RFSCTraceBuilder Λ} {p i j : Nat} :
    j ∈ s.storesOf p (addrOf (s.getAddr i)) ↔ s.StoreTo i j ∧ (s.ev j).iid.pid = p := by
  unfold storesOf
  rw [List.mem_filter, List.mem_range]
  simp only [Bool.and_eq_true, decide_eq_true_eq]
  constructor
  · intro ⟨hlt, ⟨hstore, hpid⟩, haddr⟩
    exact ⟨⟨hlt, hstore, haddr⟩, hpid⟩
  · intro ⟨⟨hlt, hstore, haddr⟩, hpid⟩
    exact ⟨hlt, ⟨hstore, hpid⟩, haddr⟩

theorem Scheduled.pid_lt {s : RFSCTraceBuilder Λ} (h : s.Scheduled) {i : Nat}
    (hi : i < s.prefixEvents.length) : (s.ev i).iid.pid < s.threads.length := by
  by_contra hge
  obtain ⟨_, hget⟩ := h.own i hi
  have hnone : s.threads[(s.ev i).iid.pid]? = none := List.getElem?_eq_none (by omega)
  unfold indicesOf at hget
  rw [List.getD_eq_getElem?_getD, hnone] at hget
  cases hget

/-- The stores of a thread to an address are in the order of their indices. -/
theorem Scheduled.storesOf_mono {s : RFSCTraceBuilder Λ} (h : s.Scheduled) {p i : Nat}
    {P : Nat → Bool} (hP : ∀ k l, k ≤ l → P l → P k) :
    (s.storesOf p (addrOf (s.getAddr i))).Pairwise fun a b =>
      P (s.ev b).iid.idx → P (s.ev a).iid.idx := by
  have hsorted : (s.storesOf p (addrOf (s.getAddr i))).Pairwise (· < ·) :=
    List.pairwise_lt_range.filter _
  refine hsorted.imp_of_mem fun {a b} ha hb hlt => hP _ _ ?_
  obtain ⟨hstorea, hpida⟩ := mem_storesOf.mp ha
  obtain ⟨hstoreb, hpidb⟩ := mem_storesOf.mp hb
  exact (h.idx_le_iff hstorea.lt hstoreb.lt (hpida.trans hpidb.symm)).mpr (Nat.le_of_lt hlt)

/-- The first position of a window. -/
def startOf (s : RFSCTraceBuilder Λ) (i p : Nat) (writes : List Nat) : Nat :=
  (writes.takeWhile fun w => (s.ev w).iid.idx ≤ VClock.get (s.ev i).aboveClock p).length - 1

/-- The position behind a window, if the store there does not follow. -/
def stopOf (s : RFSCTraceBuilder Λ) (i p : Nat) (writes : List Nat) : Nat :=
  (writes.takeWhile fun w => (s.ev w).iid.idx < VClock.get (s.belowOf i) p).length

theorem visibleWrites_eq (s : RFSCTraceBuilder Λ) (i : Nat) (a : SymAddr) {p : Nat}
    (hp : p < s.threads.length) : s.visibleWrites s.collectTables i a p =
      ((s.storesOf p a).take
        (if (s.ev i).sym.isStore && ((s.storesOf p a)[s.stopOf i p (s.storesOf p a)]?.any
            fun w => (s.ev w).sym.isLoad) then s.stopOf i p (s.storesOf p a) + 1
          else s.stopOf i p (s.storesOf p a))).drop (s.startOf i p (s.storesOf p a)) := by
  unfold visibleWrites
  rw [collectTables_writes s hp]
  rfl

section Window

variable {s : RFSCTraceBuilder Λ} {effects : List (List Nat)} (h : s.Scheduled)
  (hc : s.Clocked) (hb : s.BelowClocked effects) {i w : Nat}
include h hc hb

open Relation SortedWindow

/-- The window of a thread.  Its first store is the last one at or above the
clock, and it ends in front of the stores past the clock of the future.  A
store that also loads may follow when `i` writes. -/
theorem mem_visibleWrites_iff (hi : i < s.prefixEvents.length) (hw : s.StoreTo i w) :
    w ∈ s.visibleWrites s.collectTables i (addrOf (s.getAddr i)) (s.ev w).iid.pid ↔
      (∀ w', s.StoreTo i w' → (s.ev w').iid.pid = (s.ev w).iid.pid → w < w' →
        ¬ (w' = i ∨ s.AboveBefore w' i)) ∧
      (¬ s.Past i w ∨ ((s.ev i).sym.isStore ∧ (s.ev w).sym.isLoad) ∧
        ∀ w', s.StoreTo i w' → (s.ev w').iid.pid = (s.ev w).iid.pid → w' < w →
          ¬ s.Past i w') := by
  obtain ⟨p, hp⟩ : ∃ p, p = (s.ev w).iid.pid := ⟨_, rfl⟩
  rw [← hp, visibleWrites_eq s i _ (hp ▸ h.pid_lt hw.lt)]
  have hmem : w ∈ s.storesOf p (addrOf (s.getAddr i)) := mem_storesOf.mpr ⟨hw, hp.symm⟩
  have hsorted : (s.storesOf p (addrOf (s.getAddr i))).Pairwise (· < ·) :=
    List.pairwise_lt_range.filter _
  obtain ⟨k, hk⟩ := List.getElem?_of_mem hmem
  -- what the two searches say about a store of the thread
  have hstart := pred_length_takeWhile_le_iff hsorted (h.storesOf_mono
    (P := fun idx => decide (idx ≤ VClock.get (s.ev i).aboveClock p))
    fun k l hkl hl => decide_eq_true (Nat.le_trans hkl (of_decide_eq_true hl))) hk
  have hstop : ∀ {m v}, (s.storesOf p (addrOf (s.getAddr i)))[m]? = some v →
      (m < s.stopOf i p (s.storesOf p (addrOf (s.getAddr i))) ↔ ¬ s.Past i v) := by
    intro m v hv
    obtain ⟨hstore, hpid⟩ := mem_storesOf.mp (List.mem_of_getElem? hv)
    have hfuture := hb.future_iff h hi hstore.lt
    rw [hpid] at hfuture
    unfold stopOf
    rw [lt_length_takeWhile_iff (h.storesOf_mono
      (P := fun idx => decide (idx < VClock.get (s.belowOf i) p))
      fun k l hkl hl => decide_eq_true (Nat.lt_of_le_of_lt hkl (of_decide_eq_true hl))) hv]
    unfold Past
    rw [hpid, ← hfuture, decide_eq_true_eq, Nat.not_le]
  rw [mem_drop_take_iff hsorted.nodup hk]
  refine and_congr (hstart.trans ⟨fun hlater w' hstore hpid hlt hor => ?_,
    fun hlater b hb hlt hP => ?_⟩) ?_
  · refine hlater w' (mem_storesOf.mpr ⟨hstore, hpid⟩) hlt ?_
    have hle := (hc.above_iff h hstore.lt hi).mpr hor
    rw [hpid] at hle
    exact decide_eq_true hle
  · obtain ⟨hstore, hpid⟩ := mem_storesOf.mp hb
    refine hlater b hstore hpid hlt ((hc.above_iff h hstore.lt hi).mp ?_)
    rw [hpid]
    exact of_decide_eq_true hP
  · generalize s.stopOf i p (s.storesOf p (addrOf (s.getAddr i))) = stop at hstop ⊢
    have hlast : (∀ w', s.StoreTo i w' → (s.ev w').iid.pid = p → w' < w → ¬ s.Past i w') →
        k ≤ stop := by
      intro hearlier
      by_contra hgt
      obtain ⟨hlen, _⟩ := List.getElem?_eq_some_iff.mp hk
      have hv : (s.storesOf p (addrOf (s.getAddr i)))[stop]? = some _ :=
        List.getElem?_eq_getElem (by omega)
      obtain ⟨hstore, hpid⟩ := mem_storesOf.mp (List.mem_of_getElem? hv)
      have hlt := (getElem?_lt_iff hsorted hv hk).mpr (by omega)
      have hself := (hstop hv).mpr (hearlier _ hstore hpid hlt)
      exact Nat.lt_irrefl stop hself
    constructor
    · intro hlt
      by_cases hks : k < stop
      · exact .inl ((hstop hk).mp hks)
      · split at hlt
        · next hboth =>
          have heq : k = stop := by omega
          subst heq
          rw [hk, Bool.and_eq_true] at hboth
          refine .inr ⟨hboth, fun w' hstore hpid hlt' => ?_⟩
          obtain ⟨m, hm⟩ := List.getElem?_of_mem (mem_storesOf.mpr ⟨hstore, hpid⟩)
          exact (hstop hm).mp ((getElem?_lt_iff hsorted hm hk).mp hlt')
        · exact absurd hlt hks
    · intro hor
      rcases hor with hpast | ⟨hboth, hearlier⟩
      · have hks := (hstop hk).mpr hpast
        split <;> omega
      · have hks := hlast hearlier
        rcases Nat.lt_or_eq_of_le hks with hlt | heq
        · split <;> omega
        · subst heq
          rw [hk, Option.any_some, if_pos (Bool.and_eq_true_iff.mpr hboth)]
          exact Nat.lt_succ_self k

omit hc hb in
theorem mem_windowOf_iff (hw : s.StoreTo i w) : w ∈ s.windowOf i ↔
    w ∈ s.visibleWrites s.collectTables i (addrOf (s.getAddr i)) (s.ev w).iid.pid := by
  unfold windowOf
  rw [List.mem_flatMap]
  constructor
  · intro ⟨p, hp, hmem⟩
    have hlisted := mem_visibleWrites hmem
    rw [collectTables_writes s (List.mem_range.mp hp)] at hlisted
    rwa [(mem_storesOf.mp hlisted).2]
  · intro hmem
    exact ⟨_, List.mem_range.mpr (h.pid_lt hw.lt), hmem⟩

omit hc hb in
theorem lt_of_aboveBefore (hi : i < s.prefixEvents.length) (hw : s.AboveBefore w i) : w < i := by
  obtain ⟨j, hj, hpast⟩ := hw
  have hji := h.edge_lt (edge_of_mem_aboveCauses hi hj)
  exact Nat.lt_of_le_of_lt (h.past_le hpast) hji

/-- The windows of `i` have all visible writes exactly when the condition
holds. -/
theorem windowCovers_iff (hi : i < s.prefixEvents.length) :
    (∀ w, s.Visible i w → w ∈ s.windowOf i) ↔ s.WindowCovers i := by
  have hwindow : ∀ {w}, s.StoreTo i w → (w ∈ s.windowOf i ↔ _) := fun hw =>
    (mem_windowOf_iff h hw).trans (mem_visibleWrites_iff h hc hb hi hw)
  have htrans : ∀ {w}, TransGen s.Edge i w → i < w := by
    intro w hafter
    obtain ⟨j, hpast, hedge⟩ := TransGen.tail'_iff.mp hafter
    exact Nat.lt_of_le_of_lt (h.past_le hpast) (h.edge_lt hedge)
  constructor
  · intro hall
    constructor
    · -- the latest of the earlier stores is behind the start of the window
      intro hstore w hlt hw hpid
      generalize hm : i - w = m
      induction m using Nat.strongRecOn generalizing w with
      | ind m ih =>
        have hvisible : s.Visible i w := by
          refine ⟨hw, by omega, fun hafter => ?_, fun w' hw' hne hpid' hlt' habove => ?_⟩
          · have hiw := htrans hafter
            omega
          · have hw'i := lt_of_aboveBefore h hi habove
            exact ih (i - w') (by omega) w' hw'i hw' (hpid'.trans hpid) rfl
        have hlater := ((hwindow hw).mp (hall w hvisible)).1
        exact hlater i ⟨hi, hstore, rfl⟩ hpid.symm hlt (.inl rfl)
    · intro w hw hpid hidx
      by_contra hnot
      rw [not_or] at hnot
      have hvisible : s.Visible i w := by
        refine ⟨hw, fun heq => hpid (heq ▸ rfl), fun hafter => hnot.1 ⟨w, hafter, rfl⟩,
          fun w' hw' _ hpid' hlt' _ => ?_⟩
        have hle := h.idx_le hw'.lt
        rw [hpid'] at hle
        have hback := (h.idx_le_iff hw'.lt hw.lt hpid').mp (by omega)
        omega
      rcases ((hwindow hw).mp (hall w hvisible)).2 with hpast | ⟨hboth, _⟩
      · exact hpast (.inr hidx)
      · exact hnot.2 hboth
  · intro hcovers w hvisible
    have hw := hvisible.store
    refine (hwindow hw).mpr ⟨fun w' hw' hpid' hlt hor => ?_, ?_⟩
    · rcases hor with rfl | habove
      · exact hcovers.own hw'.isStore w hlt hw hpid'.symm
      · have hw'i := lt_of_aboveBefore h hi habove
        exact hvisible.latest w' hw' (by omega) hpid' hlt habove
    · by_cases hpast : s.Past i w
      · refine .inr ?_
        have hnot : ¬ ReflTransGen s.Edge i w := by
          intro hreach
          rcases reflTransGen_iff_eq_or_transGen.mp hreach with heq | hafter
          · exact hvisible.ne heq
          · exact hvisible.notAfter hafter
        have hidx := hpast.resolve_left hnot
        have hpid : (s.ev w).iid.pid ≠ (s.ev i).iid.pid := by
          intro hpid
          have hlt : w < i := by
            by_contra hge
            exact hnot (h.line hw.lt hpid.symm (by omega))
          have hle := h.idx_le hi
          rw [← hpid, ← hidx] at hle
          have hback := (h.idx_le_iff hi hw.lt hpid.symm).mp hle
          omega
        rcases hcovers.last w hw hpid hidx with ⟨e, hafter, hpide⟩ | hboth
        · -- an event of the thread behind `i` is in front of its last one
          obtain ⟨_, _, hedge⟩ := TransGen.tail'_iff.mp hafter
          have hle := h.idx_le hedge.1
          rw [hpide, ← hidx] at hle
          have hew := (h.idx_le_iff hedge.1 hw.lt hpide).mp hle
          exact absurd (hafter.to_reflTransGen.trans (h.line hw.lt hpide hew)) hnot
        · refine ⟨hboth, fun w' hw' hpid' hlt hpast' => ?_⟩
          rcases hpast' with hreach | hlast
          · exact hnot (hreach.trans (h.line hw.lt hpid' (Nat.le_of_lt hlt)))
          · rw [hpid', ← hidx] at hlast
            have hback := (h.idx_le_iff hw.lt hw'.lt hpid'.symm).mp (by omega)
            omega
      · exact .inl hpast

end Window

/-- In the round of an unpinned load that is no access to a mutex, the calls
of `try_read_from` miss no visible write exactly when the condition holds. -/
theorem visible_called_iff {s : RFSCTraceBuilder Λ} (h : s.Scheduled) (env : Env Λ)
    (item : DecisionNode) (replayPoint : Nat) (ids : Nat → Nat) {i : Nat}
    (hi : i < s.computeVclocks.prefixEvents.length)
    (hpinned : (s.computeVclocks.ev i).pinned = false)
    (hlock : (s.computeVclocks.ev i).sym.isLockType = false)
    (hload : (s.computeVclocks.ev i).sym.isLoad) :
    (∀ w, s.computeVclocks.Visible i w →
      w ∈ (s.computeVclocks.computeUnfolding item replayPoint ids).1.calledWrites env i) ↔
      s.computeVclocks.WindowCovers i := by
  obtain ⟨hscheduled, hclocked, _, hbelow⟩ := h.computeVclocks
  have hsame := s.computeVclocks.sameWindows_computeUnfolding item replayPoint ids
  have hend : (s.computeVclocks.computeUnfolding item replayPoint ids).1.BlockedAtEnd := by
    intro hblocked
    rw [hsame.prefixIdx, hsame.length]
    exact hscheduled.ended (hsame.mutexDeadlocks ▸ hblocked)
  rw [calledWrites_eq env hsame hend hi hpinned hlock hload]
  exact windowCovers_iff hscheduled hclocked hbelow hi

/-! ## Two lost writes -/

theorem scheduled_of_threads {s : RFSCTraceBuilder Λ}
    (own : ∀ i < s.prefixEvents.length, 1 ≤ (s.ev i).iid.idx ∧
      (s.indicesOf (s.ev i).iid.pid)[(s.ev i).iid.idx - 1]? = some i)
    (indices : ∀ p < s.threads.length, ∀ k < (s.indicesOf p).length,
      (s.indicesOf p).getD k 0 < s.prefixEvents.length ∧
      (s.ev ((s.indicesOf p).getD k 0)).iid.pid = p ∧
      (s.ev ((s.indicesOf p).getD k 0)).iid.idx ≤ k + 1)
    (sorted : ∀ p < s.threads.length, (s.indicesOf p).Pairwise (· ≤ ·))
    (after : ∀ i < s.prefixEvents.length, ∀ j ∈ (s.ev i).happensAfter, j < i)
    (spawned : ∀ i < s.prefixEvents.length, (s.ev i).iid.idx = 1 →
      0 ≤ (s.threads.getD (s.ev i).iid.pid default).spawnEvent →
      (s.threads.getD (s.ev i).iid.pid default).spawnEvent.toNat < i)
    (reads : ∀ i < s.prefixEvents.length, ∀ w ∈ (s.ev i).readFrom, w ≠ -1 → w.toNat < i)
    (ended : s.BlockedAtEnd) : s.Scheduled := by
  have hnone : ∀ p, ¬ p < s.threads.length → s.indicesOf p = [] := by
    intro p hp
    unfold indicesOf
    rw [List.getD_eq_getElem?_getD, List.getElem?_eq_none (by omega)]
    rfl
  refine ⟨own, fun p k j hj => ?_, fun p => ?_, after, spawned, reads, ended⟩
  · by_cases hp : p < s.threads.length
    · obtain ⟨hk, _⟩ := List.getElem?_eq_some_iff.mp hj
      have hget := indices p hp k hk
      rwa [List.getD_eq_getElem?_getD, hj] at hget
    · rw [hnone p hp] at hj
      cases hj
  · by_cases hp : p < s.threads.length
    · exact sorted p hp
    · rw [hnone p hp]
      exact List.Pairwise.nil

/-- The main thread spawns a thread and loads.  The other thread stores with
the last instruction that a bound of 3 on the depth lets it execute. -/
def lastStore : RFSCTraceBuilder Unit where
  prefixEvents :=
    [{ iid := ⟨0, 1⟩, sym := .spawn 1 },
      { iid := ⟨0, 2⟩, sym := .load (globalAddr 1), readFrom := some (-1) },
      { iid := ⟨1, 1⟩ }, { iid := ⟨1, 3⟩, sym := .store (globalAddr 1) [1] }]
  prefixIdx := 3
  threads := [⟨[], -1, [0, 1, 1]⟩, ⟨[0], 0, [2, 2, 3]⟩]
  mutexDeadlocks := []
  belowClocks := []

/-- The main thread spawns a thread, stores, and updates what the other thread
stored in between. -/
def ownStore : RFSCTraceBuilder Unit where
  prefixEvents :=
    [{ iid := ⟨0, 1⟩, sym := .spawn 1 }, { iid := ⟨0, 2⟩, sym := .store (globalAddr 1) [1] },
      { iid := ⟨1, 1⟩, sym := .store (globalAddr 1) [2] },
      { iid := ⟨0, 3⟩, sym := .rmw (globalAddr 1) [3], readFrom := some 2 }]
  prefixIdx := 3
  threads := [⟨[], -1, [0, 1, 3, 3]⟩, ⟨[0], 0, [2, 2]⟩]
  mutexDeadlocks := []
  belowClocks := []

theorem scheduled_lastStore : lastStore.Scheduled := by
  refine scheduled_of_threads ?_ ?_ ?_ ?_ ?_ ?_ (fun _ => rfl) <;> decide

theorem scheduled_ownStore : ownStore.Scheduled := by
  refine scheduled_of_threads ?_ ?_ ?_ ?_ ?_ ?_ (fun _ => rfl) <;> decide

/-- The load `i` may read from `w`, and there is no call for `w`. -/
structure LosesWrite (s : RFSCTraceBuilder Unit) (i w : Nat) : Prop where
  scheduled : s.Scheduled
  lt : i < s.computeVclocks.prefixEvents.length
  pinned : (s.computeVclocks.ev i).pinned = false
  lock : (s.computeVclocks.ev i).sym.isLockType = false
  load : (s.computeVclocks.ev i).sym.isLoad
  visible : s.computeVclocks.Visible i w
  lost : w ∉ (s.computeVclocks.computeUnfolding .root 0 id).1.calledWrites satisfiable i

theorem not_visible_called : lastStore.LosesWrite 1 3 ∧ ownStore.LosesWrite 3 1 := by
  constructor
  · obtain ⟨hscheduled, hclocked, _, _⟩ := scheduled_lastStore.computeVclocks
    refine ⟨scheduled_lastStore, by decide, by decide, by decide, by decide,
      ⟨⟨by decide, by decide, by decide⟩, by decide, fun hafter => ?_,
        fun w' hw' _ _ hlt => ?_⟩, by decide⟩
    · have hle := (hclocked.past_iff hscheduled (by decide) (by decide)).mp
        hafter.to_reflTransGen
      revert hle
      decide
    · have hlen := hw'.lt
      change w' < 4 at hlen
      omega
  · obtain ⟨hscheduled, hclocked, _, _⟩ := scheduled_ownStore.computeVclocks
    refine ⟨scheduled_ownStore, by decide, by decide, by decide, by decide,
      ⟨⟨by decide, by decide, by decide⟩, by decide, fun hafter => ?_,
        fun w' hw' hne hpid hlt => ?_⟩, by decide⟩
    · have hle := (hclocked.past_iff hscheduled (by decide) (by decide)).mp
        hafter.to_reflTransGen
      revert hle
      decide
    · have hlen := hw'.lt
      change w' < 4 at hlen
      obtain rfl : w' = 2 := by omega
      exact absurd hpid (by decide)

theorem visible_called_iff_lastStore :
    (∀ w, lastStore.computeVclocks.Visible 1 w →
      w ∈ (lastStore.computeVclocks.computeUnfolding .root 0 id).1.calledWrites
        satisfiable 1) ↔
      lastStore.computeVclocks.WindowCovers 1 :=
  visible_called_iff scheduled_lastStore satisfiable .root 0 id (by decide) (by decide)
    (by decide) (by decide)

end RFSCTraceBuilder

end ViEqui.Rfsc
