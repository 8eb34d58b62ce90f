import ViEqui.RfscTrace

/-!
# The attempts of `compute_prefixes`

`compute_prefixes` looks at each event of a finished execution and tries to
reverse it: it changes the read-from relation, the decisions and the outcomes
of compare-exchanges in place, asks `try_sat` for a witness, and changes
everything back by hand.

* `trySwap`, `trySwapLock`, `trySwapBlocked`, `tryReadFrom`,
  `tryReadFromRmw`: the five attempts.
* `computePrefixes`: the loop, behind `compute_vclocks` and
  `compute_unfolding`.
* `Unchanged`: the trace is as it was.
* `onlyReadFrom_rmw`, `undo_recompute`: the undo log of compare-exchanges.
* `unchanged_treatment_iff`: when the treatment of an event leaves the trace
  as it was.  Swaps write the index of the first event into the read-from of
  the second one, which need not have read from it.
-/

namespace ViEqui.Rfsc

open AssocMap

/-- `try_sat`: the addresses whose writes it looks up, and the leaf, if any. -/
structure Env (Λ : Type) where
  trySat : RFSCTraceBuilder Λ → List Nat → List SymAddr × Option Λ

namespace RFSCTraceBuilder

variable {Λ : Type}

/-! ## The parts of an attempt -/

/-- `happens_before`. -/
def happensBefore (e : Event) (c : VClock) : Bool := c.includes e.iid

/-- `can_swap_by_vclocks`. -/
def canSwapByVclocks (s : RFSCTraceBuilder Λ) (r w : Nat) : Bool :=
  !happensBefore (s.ev r) (s.ev w).aboveClock

/-- `can_swap_lock_by_vclocks`. -/
def canSwapLockByVclocks (s : RFSCTraceBuilder Λ) (f _u t : Nat) : Bool :=
  !happensBefore (s.ev f) (s.ev t).aboveClock

/-- `can_rf_by_vclocks`.  A write behind the read aborts in the source. -/
def canRfByVclocks (s : RFSCTraceBuilder Λ) (r : Nat) (ow w : Int) : Bool :=
  !(ow ≠ -1 &&
    (w = -1 || happensBefore (s.ev w.toNat) (s.ev ow.toNat).clock) &&
    happensBefore (s.ev ow.toNat) (s.ev r).aboveClock)

/-- `find_process_event`. -/
def findProcessEvent (s : RFSCTraceBuilder Λ) (pid index : Nat) : Nat :=
  (s.threads.getD pid default).eventIndices.getD (index - 1) 0

/-- `prefix[w].event`, or null for the initial value. -/
def eventOf (s : RFSCTraceBuilder Λ) (w : Int) : UnfoldingNode :=
  if w = -1 then .null else (s.ev w.toNat).event

/-- `unfold_alternative`. -/
def unfoldAlternative (s : RFSCTraceBuilder Λ) (i : Nat)
    (readFrom : UnfoldingNode) : UnfoldingNode :=
  .find (s.threads.getD (s.ev i).iid.pid default).cpid (s.ev i).event.parent
    readFrom

/-- `unfold_find_unfolding_node`. -/
def unfoldFindUnfoldingNode (s : RFSCTraceBuilder Λ) (p index : Nat)
    (prefixRf : Int) : UnfoldingNode :=
  let parent :=
    if index = 1 then .null else (s.ev (s.findProcessEvent p (index - 1))).event
  .find (s.threads.getD p default).cpid parent (s.eventOf prefixRf)

/-- An alternative that `try_alloc_unf` refuses. -/
def isKnown (s : RFSCTraceBuilder Λ) (decision : DecisionNode)
    (unf : UnfoldingNode) : Bool :=
  s.childrenUnfSet.contains (parentOf decision, unf)

/-- The insertion of `try_alloc_unf`. -/
def allocUnf (s : RFSCTraceBuilder Λ) (decision : DecisionNode)
    (unf : UnfoldingNode) : RFSCTraceBuilder Λ :=
  { s with childrenUnfSet := (parentOf decision, unf) :: s.childrenUnfSet }

/-- `try_sat`, and `construct_sibling` when it finds a leaf. -/
def solve (env : Env Λ) (s : RFSCTraceBuilder Λ) (changed : List Nat)
    (decision : DecisionNode) (unf : UnfoldingNode) : RFSCTraceBuilder Λ :=
  let (addrs, solution) := env.trySat s changed
  let s := addrs.foldl touch s
  match solution with
  | none => s
  | some leaf =>
    { s with
      siblings := s.siblings ++ [(decision, unf, leaf)]
      tasksCreated := s.tasksCreated + 1 }

/-- The body that `try_swap` and `try_swap_lock` share: `back` is the value
that the read-from of `j` is set to at the end, and `allowed` the test of the
clocks. -/
def swapAttempt (env : Env Λ) (s : RFSCTraceBuilder Λ) (i j : Nat) (back : Int)
    (allowed : Bool) : RFSCTraceBuilder Λ :=
  let originalReadFrom := s.readFromOf i
  let alt := s.unfoldAlternative j (s.ev i).event.readFrom
  let decision := s.decisionOf i
  if s.isKnown decision alt then s
  else
    let s := s.allocUnf decision alt
    if !allowed then s
    else
      let s := (s.setReadFrom j originalReadFrom).decisionSwap i j
      let s := s.solve env [j] decision alt
      (s.setReadFrom j back).decisionSwap i j

/-- `try_swap`. -/
def trySwap (env : Env Λ) (s : RFSCTraceBuilder Λ) (i j : Nat) :
    RFSCTraceBuilder Λ :=
  s.swapAttempt env i j i (s.canSwapByVclocks i j)

/-- `try_swap_lock`. -/
def trySwapLock (env : Env Λ) (s : RFSCTraceBuilder Λ) (i unlock j : Nat) :
    RFSCTraceBuilder Λ :=
  s.swapAttempt env i j unlock (s.canSwapLockByVclocks i unlock j)

/-- `add_happens_after`, for the list of the second event. -/
def addHappensAfter (happensAfter : List Nat) (first : Nat) : List Nat :=
  if happensAfter.getLast? = some first then happensAfter else happensAfter ++ [first]

/-- What `compute_above_clock` makes of an event. -/
def withAboveClock (s : RFSCTraceBuilder Λ) (e : Event) : Event :=
  let thread := s.threads.getD e.iid.pid default
  let (clock, happensAfter) :=
    if 1 < e.iid.idx then
      ((s.ev (s.findProcessEvent e.iid.pid (e.iid.idx - 1))).clock, e.happensAfter)
    else if 0 ≤ thread.spawnEvent then
      ([], addHappensAfter e.happensAfter thread.spawnEvent.toNat)
    else ([], e.happensAfter)
  let clock := insert clock e.iid.pid e.iid.idx
  let clock := happensAfter.foldl (fun c j => VClock.join c (s.ev j).clock) clock
  { e with clock, happensAfter, aboveClock := clock }

/-- The event that `try_swap_blocked` appends for the blocked thread `jp`. -/
def pushBlocked (s : RFSCTraceBuilder Λ) (jp jidx : Nat) (addr : SymAddrSize)
    (alt : UnfoldingNode) : RFSCTraceBuilder Λ :=
  let j := (s.prefixIdx + 1).toNat
  let s := { s with
    prefixIdx := s.prefixIdx + 1
    prefixEvents := s.prefixEvents ++
      [({ iid := ⟨jp, jidx⟩, sym := .mLock addr } : Event)] }
  let s := s.modifyEvent j fun e => { e with event := alt }
  let s := s.modifyThread jp fun th =>
    { th with eventIndices := th.eventIndices ++ [j] }
  s.modifyEvent j s.withAboveClock

/-- The replacement of `i` by the event `j` of a blocked thread. -/
def replaceBlocked (env : Env Λ) (s : RFSCTraceBuilder Λ) (i j : Nat)
    (originalReadFrom : Int) (decision : DecisionNode) (alt : UnfoldingNode) :
    RFSCTraceBuilder Λ :=
  if s.canSwapByVclocks i j then
    let s := (s.setReadFrom j originalReadFrom).decisionSwap i j
    let s := (s.setPinned i true).solve env [j] decision alt
    (s.decisionSwap i j).setPinned i false
  else s

/-- The removal of the event of the blocked thread `jp`. -/
def popBlocked (s : RFSCTraceBuilder Λ) (jp : Nat) : RFSCTraceBuilder Λ :=
  let s := s.modifyThread jp fun th =>
    { th with eventIndices := th.eventIndices.dropLast }
  { s with prefixEvents := s.prefixEvents.dropLast, prefixIdx := s.prefixIdx - 1 }

/-- `try_swap_blocked`. -/
def trySwapBlocked (env : Env Λ) (i : Nat) (addr : SymAddrSize)
    (s : RFSCTraceBuilder Λ) (jp : Nat) : RFSCTraceBuilder Λ :=
  let originalReadFrom := s.readFromOf i
  let jidx := (s.threads.getD jp default).eventIndices.length + 1
  let alt := s.unfoldFindUnfoldingNode jp jidx originalReadFrom
  let decision := s.decisionOf i
  if s.isKnown decision alt then s
  else
    let s := s.allocUnf decision alt
    let j := (s.prefixIdx + 1).toNat
    let s := s.pushBlocked jp jidx addr alt
    let s := s.replaceBlocked env i j originalReadFrom decision alt
    s.popBlocked jp

/-- `try_read_from_rmw`, for the read-from `originalReadFrom` of `i`. -/
def tryReadFromRmw (env : Env Λ) (i : Nat) (addr : SymAddr)
    (originalReadFrom : Int) (decision : DecisionNode) (s : RFSCTraceBuilder Λ)
    (j : Nat) : RFSCTraceBuilder Λ :=
  -- only adjacent rmws can be swapped
  if (s.ev j).readFrom ≠ some (i : Int) then s
  else
    let readFrom := s.unfoldAlternative j (s.ev i).event.readFrom
    if s.isKnown decision readFrom then s
    else
      let s := s.allocUnf decision readFrom
      if !s.canSwapByVclocks i j then s
      else
        let s := (s.setReadFrom j originalReadFrom).setReadFrom i j
        let (s, undoj) := s.recomputeCmpxhgSuccess j addr
        let (s, undoi) := s.recomputeCmpxhgSuccess i addr
        let s := s.solve env [j, i] decision readFrom
        let s := s.setReadFrom j i
        let s := s.undoCmpxhgRecomputation undoi i addr
        s.undoCmpxhgRecomputation undoj j addr

/-- `try_read_from`. -/
def tryReadFrom (env : Env Λ) (i : Nat) (addr : SymAddr)
    (originalReadFrom : Int) (decision : DecisionNode) (s : RFSCTraceBuilder Λ)
    (j : Int) : RFSCTraceBuilder Λ :=
  if j = originalReadFrom ∨ j = i then s
  else if j ≠ -1 ∧ (i : Int) < j ∧ (s.ev i).sym.isStore ∧
      (s.ev j.toNat).sym.isLoad then
    if s.isStoreWhenReadingFrom j.toNat originalReadFrom then
      s.tryReadFromRmw env i addr originalReadFrom decision j.toNat
    else s
  else
    let readFrom := s.eventOf j
    if s.isKnown decision readFrom then s
    else
      let s := s.allocUnf decision readFrom
      if !s.canRfByVclocks i originalReadFrom j then s
      else
        let s := s.setReadFrom i j
        let (s, undoi) := s.recomputeCmpxhgSuccess i addr
        let s := s.solve env [i] decision readFrom
        s.undoCmpxhgRecomputation undoi i addr

/-! ## The loop -/

/-- The other two tables that `compute_prefixes` makes at its start. -/
structure Tables where
  cmpxhgfailByAddress : Map SymAddr (List Nat)
  writesByProcessAndAddress : List (Map SymAddr (List Nat))

/-- `table[addr].push_back(j)`. -/
def pushBack (table : Map SymAddr (List Nat)) (addr : SymAddr) (j : Nat) :
    Map SymAddr (List Nat) :=
  modify table addr [] (· ++ [j])

/-- The stores by address. -/
def collectWrites (s : RFSCTraceBuilder Λ) : Map SymAddr (List Nat) :=
  (List.range s.prefixEvents.length).foldl
    (fun m j =>
      if (s.ev j).sym.isStore then pushBack m (addrOf (s.getAddr j)) j else m) []

/-- The tables by thread and of failed compare-exchanges. -/
def collectTables (s : RFSCTraceBuilder Λ) : Tables where
  cmpxhgfailByAddress :=
    (List.range s.prefixEvents.length).foldl
      (fun m j =>
        if (s.ev j).sym.isCmpxhgfail then pushBack m (addrOf (s.getAddr j)) j
        else m) []
  writesByProcessAndAddress :=
    (List.range s.prefixEvents.length).foldl
      (fun ms j =>
        if (s.ev j).sym.isStore then
          ms.modify (s.ev j).iid.pid fun m => pushBack m (addrOf (s.getAddr j)) j
        else ms)
      (List.replicate s.threads.length [])

/-- The accesses behind `i` to the address of `i`: `upper_bound`. -/
def nextAccesses (s : RFSCTraceBuilder Λ) (i : Nat) : List Nat :=
  (s.writes (addrOf (s.getAddr i))).dropWhile (· ≤ i)

/-- The next unlock and the lock behind it, as `compute_prefixes` looks for
them behind a lock. -/
def nextRelock (s : RFSCTraceBuilder Λ) (next : List Nat) : Option (Nat × Nat) :=
  match next.dropWhile fun j => (s.ev j).sym.isTrylockFail with
  | unlock :: relock :: _ =>
    if (s.ev unlock).sym.isUnlock && (s.ev relock).sym.isLock then
      some (unlock, relock)
    else none
  | _ => none

/-- The treatment of an access to a mutex. -/
def treatLock (env : Env Λ) (s : RFSCTraceBuilder Λ) (i : Nat) :
    RFSCTraceBuilder Λ :=
  let addr := s.getAddr i
  let s := s.touch (addrOf addr)
  match s.nextAccesses i with
  | [] =>
    if (s.ev i).sym.doesLock then
      (getD s.mutexDeadlocks (addrOf addr) []).foldl (trySwapBlocked env i addr) s
    else s
  | j :: next =>
    if (s.ev i).sym.isUnlock && (s.ev j).sym.isLock then s
    else
      let s := s.trySwap env i j
      if !(s.ev i).sym.doesLock then s
      else
        match s.nextRelock (j :: next) with
        | some (unlock, relock) => s.trySwapLock env i unlock relock
        | none => s

/-- The writes of thread `p` that may be visible to `i`. -/
def visibleWrites (s : RFSCTraceBuilder Λ) (tables : Tables) (i : Nat)
    (addr : SymAddr) (p : Nat) : List Nat :=
  let writes := getD (tables.writesByProcessAndAddress.getD p []) addr []
  let above := (s.ev i).aboveClock.get p
  let below := VClock.get (s.belowClocks.getD i []) p
  let start := (writes.takeWhile fun w => (s.ev w).iid.idx ≤ above).length - 1
  let stop := (writes.takeWhile fun w => (s.ev w).iid.idx < below).length
  -- an rmw behind the last visible write can change places with `i`
  let stop :=
    if (s.ev i).sym.isStore && (writes[stop]?.any fun w => (s.ev w).sym.isLoad) then
      stop + 1
    else stop
  (writes.take stop).drop start

/-- The attempts with the visible writes of all threads. -/
def tryWrites (env : Env Λ) (tables : Tables) (i : Nat) (addr : SymAddr)
    (originalReadFrom : Int) (decision : DecisionNode) (s : RFSCTraceBuilder Λ) :
    RFSCTraceBuilder Λ :=
  (List.range s.threads.length).foldl
    (fun s p => (s.visibleWrites tables i addr p).foldl
      (fun s (w : Nat) => s.tryReadFrom env i addr originalReadFrom decision w) s) s

/-- The attempts with the compare-exchanges that failed and would succeed in
the place of `i`. -/
def tryCmpxhgfails (env : Env Λ) (i : Nat) (addr : SymAddr)
    (originalReadFrom : Int) (decision : DecisionNode) (js : List Nat)
    (s : RFSCTraceBuilder Λ) : RFSCTraceBuilder Λ :=
  js.foldl
    (fun s j =>
      if i < j ∧ s.isStoreWhenReadingFrom j originalReadFrom then
        s.tryReadFromRmw env i addr originalReadFrom decision j
      else s) s

/-- The treatment of a load. -/
def treatLoad (env : Env Λ) (tables : Tables) (s : RFSCTraceBuilder Λ) (i : Nat) :
    RFSCTraceBuilder Λ :=
  let addr := addrOf (s.getAddr i)
  let s := s.touch addr
  let originalReadFrom := s.readFromOf i
  let decision := s.decisionOf i
  let s := s.tryWrites env tables i addr originalReadFrom decision
  let s := s.tryReadFrom env i addr originalReadFrom decision (-1)
  let s :=
    if (s.ev i).sym.isStore then
      s.tryCmpxhgfails env i addr originalReadFrom decision
        (getD tables.cmpxhgfailByAddress addr [])
    else s
  s.setReadFrom i originalReadFrom

/-- The body of the loop of `compute_prefixes`. -/
def treat (env : Env Λ) (tables : Tables) (s : RFSCTraceBuilder Λ) (i : Nat) :
    RFSCTraceBuilder Λ :=
  if (s.ev i).pinned then s
  else if (s.ev i).sym.isLockType then s.treatLock env i
  else if (s.ev i).sym.isLoad then s.treatLoad env tables i
  else s

/-- The state in front of the `k`-th round of the loop. -/
def computePrefixesUpTo (env : Env Λ) (s : RFSCTraceBuilder Λ) (k : Nat) :
    RFSCTraceBuilder Λ :=
  (List.range k).foldl (treat env s.collectTables)
    { s with writesByAddress := s.collectWrites }

/-- `compute_prefixes`, behind the computation of clocks and unfolding
events. -/
def computePrefixes (env : Env Λ) (s : RFSCTraceBuilder Λ) : RFSCTraceBuilder Λ :=
  s.computePrefixesUpTo env s.prefixEvents.length

/-! ## Frames -/

/-- Everything but the events is as it was.  An entry of `writes_by_address`
that reads as the empty vector is no entry. -/
structure SameRest (s' s : RFSCTraceBuilder Λ) : Prop where
  prefixIdx : s'.prefixIdx = s.prefixIdx
  threads : s'.threads = s.threads
  mutexDeadlocks : s'.mutexDeadlocks = s.mutexDeadlocks
  belowClocks : s'.belowClocks = s.belowClocks
  writes : ∀ a, s'.writes a = s.writes a

/-- The trace is as it was. -/
structure Unchanged (s' s : RFSCTraceBuilder Λ) : Prop extends SameRest s' s where
  prefixEvents : s'.prefixEvents = s.prefixEvents

theorem SameRest.refl (s : RFSCTraceBuilder Λ) : SameRest s s :=
  ⟨rfl, rfl, rfl, rfl, fun _ => rfl⟩

theorem SameRest.trans {s s' s'' : RFSCTraceBuilder Λ} (h' : SameRest s'' s')
    (h : SameRest s' s) : SameRest s'' s where
  prefixIdx := h'.prefixIdx.trans h.prefixIdx
  threads := h'.threads.trans h.threads
  mutexDeadlocks := h'.mutexDeadlocks.trans h.mutexDeadlocks
  belowClocks := h'.belowClocks.trans h.belowClocks
  writes a := (h'.writes a).trans (h.writes a)

theorem Unchanged.refl (s : RFSCTraceBuilder Λ) : Unchanged s s :=
  ⟨.refl s, rfl⟩

theorem Unchanged.trans {s s' s'' : RFSCTraceBuilder Λ} (h' : Unchanged s'' s')
    (h : Unchanged s' s) : Unchanged s'' s :=
  ⟨h'.toSameRest.trans h.toSameRest, h'.prefixEvents.trans h.prefixEvents⟩

theorem Unchanged.ev {s s' : RFSCTraceBuilder Λ} (h : Unchanged s' s) (k : Nat) :
    s'.ev k = s.ev k := by
  unfold RFSCTraceBuilder.ev
  rw [h.prefixEvents]

theorem sameRest_modifyEvent (s : RFSCTraceBuilder Λ) (i : Nat)
    (f : Event → Event) : SameRest (s.modifyEvent i f) s :=
  ⟨rfl, rfl, rfl, rfl, fun _ => rfl⟩

theorem unchanged_allocUnf (s : RFSCTraceBuilder Λ) (decision : DecisionNode)
    (unf : UnfoldingNode) : Unchanged (s.allocUnf decision unf) s :=
  ⟨⟨rfl, rfl, rfl, rfl, fun _ => rfl⟩, rfl⟩

theorem writes_modifyWrites (s : RFSCTraceBuilder Λ) (a b : SymAddr)
    (f : List Nat → List Nat) :
    (s.modifyWrites a f).writes b = if a = b then f (s.writes b) else s.writes b :=
  getD_modify _ _ _ _ _

theorem unchanged_touch (s : RFSCTraceBuilder Λ) (a : SymAddr) :
    Unchanged (s.touch a) s := by
  refine ⟨⟨rfl, rfl, rfl, rfl, fun b => ?_⟩, rfl⟩
  show (s.modifyWrites a id).writes b = s.writes b
  rw [writes_modifyWrites]
  split <;> rfl

theorem unchanged_solve (env : Env Λ) (s : RFSCTraceBuilder Λ)
    (changed : List Nat) (decision : DecisionNode) (unf : UnfoldingNode) :
    Unchanged (s.solve env changed decision unf) s := by
  have htouch : ∀ (addrs : List SymAddr) (s : RFSCTraceBuilder Λ),
      Unchanged (addrs.foldl touch s) s := by
    intro addrs
    induction addrs with
    | nil => exact .refl
    | cons a addrs ih =>
      intro s
      exact (ih _).trans (unchanged_touch s a)
  have h := htouch (env.trySat s changed).1 s
  unfold solve
  simp only
  split
  · exact h
  · exact ⟨⟨h.prefixIdx, h.threads, h.mutexDeadlocks, h.belowClocks, h.writes⟩,
      h.prefixEvents⟩

/-! ## Events behind an update -/

@[simp] theorem length_modifyEvent (s : RFSCTraceBuilder Λ) (i : Nat)
    (f : Event → Event) :
    (s.modifyEvent i f).prefixEvents.length = s.prefixEvents.length :=
  List.length_modify ..

theorem ev_modifyEvent (s : RFSCTraceBuilder Λ) (i : Nat) (f : Event → Event)
    {k : Nat} (hk : k < s.prefixEvents.length) :
    (s.modifyEvent i f).ev k = if i = k then f (s.ev k) else s.ev k := by
  unfold ev modifyEvent
  simp only [List.getD_eq_getElem?_getD, List.getElem?_modify,
    List.getElem?_eq_getElem hk]
  split <;> rfl

/-- Events are compared one by one. -/
theorem prefixEvents_ext {s s' : RFSCTraceBuilder Λ}
    (hlen : s'.prefixEvents.length = s.prefixEvents.length)
    (hev : ∀ k, k < s.prefixEvents.length → s'.ev k = s.ev k) :
    s'.prefixEvents = s.prefixEvents := by
  refine List.ext_getElem hlen fun k hk' hk => ?_
  have h := hev k hk
  unfold ev at h
  simp only [List.getD_eq_getElem?_getD, List.getElem?_eq_getElem hk,
    List.getElem?_eq_getElem hk', Option.getD_some] at h
  exact h

theorem ev_decisionSwap (s : RFSCTraceBuilder Λ) {i j k : Nat} (hij : i ≠ j)
    (hk : k < s.prefixEvents.length) :
    (s.decisionSwap i j).ev k =
      if k = i then
        { s.ev i with
          decisionPtr := (s.ev j).decisionPtr
          decisionDepth := (s.ev j).decisionDepth }
      else if k = j then
        { s.ev j with
          decisionPtr := (s.ev i).decisionPtr
          decisionDepth := (s.ev i).decisionDepth }
      else s.ev k := by
  unfold decisionSwap
  simp only
  rw [ev_modifyEvent _ _ _ (by simpa using hk), ev_modifyEvent _ _ _ hk]
  by_cases hi : k = i
  · subst hi
    simp [Ne.symm hij]
  · by_cases hj : k = j
    · subst hj
      simp [hij, hi]
    · simp [Ne.symm hi, Ne.symm hj, hi, hj]

theorem length_decisionSwap (s : RFSCTraceBuilder Λ) (i j : Nat) :
    (s.decisionSwap i j).prefixEvents.length = s.prefixEvents.length := by
  unfold decisionSwap
  simp

theorem sameRest_decisionSwap (s : RFSCTraceBuilder Λ) (i j : Nat) :
    SameRest (s.decisionSwap i j) s :=
  ⟨rfl, rfl, rfl, rfl, fun _ => rfl⟩

/-! ## Swaps -/

/-- A swap is attempted: its alternative is new and the clocks allow it. -/
def Attempted (s : RFSCTraceBuilder Λ) (i j : Nat) (allowed : Bool) : Prop :=
  ¬ s.isKnown (s.decisionOf i) (s.unfoldAlternative j (s.ev i).event.readFrom) ∧
    allowed

instance (s : RFSCTraceBuilder Λ) (i j : Nat) (allowed : Bool) :
    Decidable (s.Attempted i j allowed) :=
  inferInstanceAs (Decidable (_ ∧ _))

theorem sameRest_swapAttempt (env : Env Λ) (s : RFSCTraceBuilder Λ) (i j : Nat)
    (back : Int) (allowed : Bool) :
    SameRest (s.swapAttempt env i j back allowed) s := by
  unfold swapAttempt
  simp only
  split
  · exact .refl s
  · split
    · exact (unchanged_allocUnf s _ _).toSameRest
    · apply (sameRest_decisionSwap _ _ _).trans
      apply (sameRest_modifyEvent _ _ _).trans
      apply (unchanged_solve _ _ _ _ _).toSameRest.trans
      apply (sameRest_decisionSwap _ _ _).trans
      apply (sameRest_modifyEvent _ _ _).trans
      exact (unchanged_allocUnf s _ _).toSameRest

/-- The second swap of the decisions takes the first one back. -/
theorem prefixEvents_swap_back {s s' : RFSCTraceBuilder Λ} {i j : Nat}
    (o back : Int) (hij : i ≠ j) (hi : i < s.prefixEvents.length)
    (hj : j < s.prefixEvents.length)
    (h : Unchanged s' ((s.setReadFrom j o).decisionSwap i j)) :
    ((s'.setReadFrom j back).decisionSwap i j).prefixEvents =
      (s.setReadFrom j back).prefixEvents := by
  have hlen : s'.prefixEvents.length = s.prefixEvents.length := by
    rw [h.prefixEvents, length_decisionSwap]
    exact length_modifyEvent _ _ _
  have hev : ∀ k, k < s.prefixEvents.length →
      (s.setReadFrom j o).ev k =
        if j = k then { s.ev k with readFrom := some o } else s.ev k :=
    fun k hk => ev_modifyEvent _ _ _ hk
  have hev' : ∀ k, k < s.prefixEvents.length →
      (s'.setReadFrom j back).ev k =
        if j = k then { s'.ev k with readFrom := some back } else s'.ev k :=
    fun k hk => ev_modifyEvent _ _ _ (by omega)
  have hswap : ∀ k, k < s.prefixEvents.length → s'.ev k = _ := fun k hk =>
    (h.ev k).trans (ev_decisionSwap _ hij ((length_modifyEvent _ _ _).symm ▸ hk))
  apply prefixEvents_ext
  · rw [length_decisionSwap]
    show (s'.modifyEvent j _).prefixEvents.length =
      (s.modifyEvent j _).prefixEvents.length
    simp only [length_modifyEvent, hlen]
  · intro k hk
    have hks : k < s.prefixEvents.length := by
      rwa [setReadFrom, length_modifyEvent] at hk
    have hks' : k < (s'.setReadFrom j back).prefixEvents.length := by
      rwa [setReadFrom, length_modifyEvent, hlen]
    rw [ev_decisionSwap _ hij hks', hev' i hi, hev' j hj, hev' k hks,
      hswap i hi, hswap j hj, hswap k hks, hev i hi, hev j hj, hev k hks,
      setReadFrom, ev_modifyEvent _ _ _ hks]
    by_cases hki : k = i
    · subst hki
      simp [Ne.symm hij]
    · by_cases hkj : k = j
      · subst hkj
        simp [Ne.symm hij]
      · simp [hki, hkj, Ne.symm hkj]

/-- An attempted swap writes to the read-from of `j`, and the rest of the
events is as it was. -/
theorem prefixEvents_swapAttempt (env : Env Λ) (s : RFSCTraceBuilder Λ)
    {i j : Nat} (back : Int) (allowed : Bool) (hij : i ≠ j)
    (hi : i < s.prefixEvents.length) (hj : j < s.prefixEvents.length) :
    (s.swapAttempt env i j back allowed).prefixEvents =
      if s.Attempted i j allowed then (s.setReadFrom j back).prefixEvents
      else s.prefixEvents := by
  unfold swapAttempt Attempted
  simp only
  by_cases hknown :
      s.isKnown (s.decisionOf i) (s.unfoldAlternative j (s.ev i).event.readFrom)
  · simp [hknown]
  · by_cases hallowed : allowed
    · have hback := prefixEvents_swap_back (s := s.allocUnf (s.decisionOf i)
          (s.unfoldAlternative j (s.ev i).event.readFrom)) (s.readFromOf i) back
        hij hi hj (unchanged_solve env _ [j] (s.decisionOf i)
          (s.unfoldAlternative j (s.ev i).event.readFrom))
      simp only [hknown, hallowed, Bool.false_eq_true, if_false,
        not_false_eq_true, Bool.not_true, and_self, if_true]
      exact hback
    · simp [hknown, hallowed, allocUnf]

/-! ## Blocked threads -/

theorem length_pushBlocked (s : RFSCTraceBuilder Λ) (jp jidx : Nat)
    (addr : SymAddrSize) (alt : UnfoldingNode) :
    (s.pushBlocked jp jidx addr alt).prefixEvents.length =
      s.prefixEvents.length + 1 := by
  unfold pushBlocked modifyThread modifyEvent
  simp

theorem ev_pushBlocked (s : RFSCTraceBuilder Λ) (jp jidx : Nat)
    (addr : SymAddrSize) (alt : UnfoldingNode)
    (hidx : s.prefixIdx + 1 = s.prefixEvents.length) {k : Nat}
    (hk : k < s.prefixEvents.length) :
    (s.pushBlocked jp jidx addr alt).ev k = s.ev k := by
  unfold pushBlocked modifyThread modifyEvent ev
  simp only [hidx, Int.toNat_natCast, List.getD_eq_getElem?_getD,
    List.getElem?_modify_ne _ _ (Nat.ne_of_gt hk),
    List.getElem?_append_left hk]

/-- The attempt with a blocked thread swaps the decisions twice and pins `i`
in between.  The event `j` is thrown away afterwards. -/
theorem ev_replaceBlocked (env : Env Λ) {s : RFSCTraceBuilder Λ} {i j : Nat}
    (o : Int) (decision : DecisionNode) (alt : UnfoldingNode)
    (hij : i ≠ j) (hi : i < s.prefixEvents.length)
    (hj : j < s.prefixEvents.length) (hpinned : (s.ev i).pinned = false)
    {k : Nat} (hk : k < s.prefixEvents.length) (hkj : k ≠ j) :
    (s.replaceBlocked env i j o decision alt).ev k = s.ev k := by
  unfold replaceBlocked
  split
  · simp only
    have hread : ∀ k, k < s.prefixEvents.length →
        (s.setReadFrom j o).ev k =
          if j = k then { s.ev k with readFrom := some o } else s.ev k :=
      fun k hk => ev_modifyEvent _ _ _ hk
    have hlenRead : (s.setReadFrom j o).prefixEvents.length =
        s.prefixEvents.length := length_modifyEvent _ _ _
    have hsolve := unchanged_solve env
      (((s.setReadFrom j o).decisionSwap i j).setPinned i true) [j] decision alt
    generalize (((s.setReadFrom j o).decisionSwap i j).setPinned i true).solve
      env [j] decision alt = s' at hsolve
    have hlen : s'.prefixEvents.length = s.prefixEvents.length := by
      rw [hsolve.prefixEvents, setPinned, length_modifyEvent, length_decisionSwap,
        hlenRead]
    have hev : ∀ k, k < s.prefixEvents.length → s'.ev k =
        if i = k then
          { ((s.setReadFrom j o).decisionSwap i j).ev k with pinned := true }
        else ((s.setReadFrom j o).decisionSwap i j).ev k := by
      intro k hk
      rw [hsolve.ev k, setPinned, ev_modifyEvent]
      rwa [length_decisionSwap, hlenRead]
    rw [setPinned, ev_modifyEvent _ _ _ (by rwa [length_decisionSwap, hlen]),
      ev_decisionSwap _ hij (by rwa [hlen]), hev k hk, hev i hi, hev j hj,
      ev_decisionSwap _ hij (by rwa [hlenRead]),
      ev_decisionSwap _ hij (by rwa [hlenRead]),
      ev_decisionSwap _ hij (by rwa [hlenRead]), hread i hi, hread j hj,
      hread k hk]
    by_cases hki : k = i
    · subst hki
      simp [hij, Ne.symm hij, ← hpinned]
    · simp [hki, Ne.symm hki, hkj, Ne.symm hkj]
  · rfl

theorem sameRest_replaceBlocked (env : Env Λ) (s : RFSCTraceBuilder Λ)
    (i j : Nat) (o : Int) (decision : DecisionNode) (alt : UnfoldingNode) :
    SameRest (s.replaceBlocked env i j o decision alt) s := by
  unfold replaceBlocked
  split
  · apply (sameRest_modifyEvent _ _ _).trans
    apply (sameRest_decisionSwap _ _ _).trans
    apply (unchanged_solve _ _ _ _ _).toSameRest.trans
    apply (sameRest_modifyEvent _ _ _).trans
    apply (sameRest_decisionSwap _ _ _).trans
    exact sameRest_modifyEvent _ _ _
  · exact .refl s

theorem length_replaceBlocked (env : Env Λ) (s : RFSCTraceBuilder Λ)
    (i j : Nat) (o : Int) (decision : DecisionNode) (alt : UnfoldingNode) :
    (s.replaceBlocked env i j o decision alt).prefixEvents.length =
      s.prefixEvents.length := by
  unfold replaceBlocked
  split
  · simp only [setPinned, length_modifyEvent, length_decisionSwap,
      (unchanged_solve _ _ _ _ _).prefixEvents, setReadFrom]
  · rfl

theorem modify_modify_back {α : Type} (l : List α) (p : Nat) {f g : α → α}
    (hback : ∀ x, g (f x) = x) : (l.modify p f).modify p g = l := by
  refine List.ext_getElem? fun k => ?_
  rw [List.getElem?_modify, List.getElem?_modify]
  cases l[k]? with
  | none => rfl
  | some x => by_cases h : p = k <;> simp [h, hback]

/-- What is left of the event of a blocked thread: nothing. -/
theorem unchanged_popBlocked {s s' : RFSCTraceBuilder Λ} {jp jidx : Nat}
    {addr : SymAddrSize} {alt : UnfoldingNode}
    (hrest : SameRest s' (s.pushBlocked jp jidx addr alt))
    (hlen : s'.prefixEvents.length = s.prefixEvents.length + 1)
    (hev : ∀ k, k < s.prefixEvents.length → s'.ev k = s.ev k) :
    Unchanged (s'.popBlocked jp) s where
  prefixIdx := by
    show s'.prefixIdx - 1 = s.prefixIdx
    rw [hrest.prefixIdx]
    exact Int.add_sub_cancel _ _
  threads := by
    show s'.threads.modify jp _ = s.threads
    rw [hrest.threads]
    refine modify_modify_back _ _ fun th => ?_
    rw [List.dropLast_concat]
  mutexDeadlocks := hrest.mutexDeadlocks
  belowClocks := hrest.belowClocks
  writes := hrest.writes
  prefixEvents := by
    refine prefixEvents_ext ?_ fun k hk => ?_
    · show s'.prefixEvents.dropLast.length = s.prefixEvents.length
      rw [List.length_dropLast, hlen, Nat.add_sub_cancel]
    · rw [← hev k hk]
      show s'.prefixEvents.dropLast.getD k default = s'.prefixEvents.getD k default
      simp only [List.getD_eq_getElem?_getD, List.dropLast_eq_take]
      rw [List.getElem?_take_of_lt (by omega)]

/-- What the attempts with blocked threads need of the trace: it was executed
to its end, and `i` is not pinned. -/
structure Blockable (s : RFSCTraceBuilder Λ) (i : Nat) : Prop where
  lt : i < s.prefixEvents.length
  atEnd : s.prefixIdx + 1 = s.prefixEvents.length
  unpinned : (s.ev i).pinned = false

theorem unchanged_trySwapBlocked (env : Env Λ) {s : RFSCTraceBuilder Λ} {i : Nat}
    (addr : SymAddrSize) (jp : Nat) (h : s.Blockable i) :
    Unchanged (s.trySwapBlocked env i addr jp) s := by
  unfold trySwapBlocked
  simp only
  split
  · exact .refl s
  · have halloc := unchanged_allocUnf s (s.decisionOf i)
      (s.unfoldFindUnfoldingNode jp
        ((s.threads.getD jp default).eventIndices.length + 1) (s.readFromOf i))
    generalize s.allocUnf _ _ = s1 at halloc ⊢
    have hidx : s1.prefixIdx + 1 = s1.prefixEvents.length := by
      rw [halloc.prefixIdx, halloc.prefixEvents, h.atEnd]
    have hi : i < s1.prefixEvents.length := halloc.prefixEvents ▸ h.lt
    have hpush := length_pushBlocked s1
    rw [hidx, Int.toNat_natCast]
    refine Unchanged.trans (unchanged_popBlocked
      (sameRest_replaceBlocked _ _ _ _ _ _ _)
      ((length_replaceBlocked _ _ _ _ _ _ _).trans (hpush ..))
      fun k hk => ?_) halloc
    rw [ev_replaceBlocked _ _ _ _ (Nat.ne_of_lt hi) (by rw [hpush]; omega)
      (by rw [hpush]; omega) ?_ (by rw [hpush]; omega) (Nat.ne_of_lt hk),
      ev_pushBlocked _ _ _ _ _ hidx hk]
    rw [ev_pushBlocked _ _ _ _ _ hidx hi, halloc.ev, h.unpinned]

/-! ## The outcome of a compare-exchange or a trylock -/

open CmpXhgUndoLog in
/-- The log restores the symbolic event. -/
theorem undoSym_undoLogOf (s : RFSCTraceBuilder Λ) (idx : Nat)
    (writes : List Nat) :
    undoSym (undoLogOf writes idx (s.ev idx).sym (s.recomputedSym idx))
      (s.recomputedSym idx) = (s.ev idx).sym := by
  unfold recomputedSym
  cases (s.ev idx).sym with
  | mTryLock a => simp only; split <;> rfl
  | mTryLockFail a => simp only; split <;> rfl
  | cmpXhg a written expected => simp only; split <;> rfl
  | cmpXhgFail a written expected => simp only; split <;> rfl
  | _ => rfl

open CmpXhgUndoLog in
/-- The log restores the vector of writes, which holds the event when it is a
store. -/
theorem undoWrites_redoWrites {sym sym' : SymEv} {idx : Nat} {writes : List Nat}
    (hmem : sym.isStore → idx ∈ writes) :
    undoWrites (undoLogOf writes idx sym sym') idx
      (redoWrites (undoLogOf writes idx sym sym') idx writes) = writes := by
  have hrestore : idx ∈ writes →
      SwapRemove.restoreAt (SwapRemove.removeAt writes
        (SwapRemove.lastIdxOf writes idx)) (SwapRemove.lastIdxOf writes idx) idx =
        writes :=
    fun h => SwapRemove.restoreAt_removeAt (SwapRemove.getElem?_lastIdxOf h)
  unfold undoLogOf
  split
  · exact hrestore (hmem rfl)
  · exact List.dropLast_concat
  · exact hrestore (hmem rfl)
  · exact List.dropLast_concat
  · rfl

/-- Another event stays in the vector of writes. -/
theorem mem_redoWrites {sym sym' : SymEv} {idx k : Nat} {writes : List Nat}
    (hmem : sym.isStore → idx ∈ writes) (hne : k ≠ idx) (hk : k ∈ writes) :
    k ∈ (undoLogOf writes idx sym sym').redoWrites idx writes := by
  have hremove : idx ∈ writes →
      k ∈ SwapRemove.removeAt writes (SwapRemove.lastIdxOf writes idx) :=
    fun h => SwapRemove.mem_removeAt_of_ne (SwapRemove.getElem?_lastIdxOf h) hk hne
  unfold undoLogOf
  split
  · exact hremove (hmem rfl)
  · exact List.mem_append_left _ hk
  · exact hremove (hmem rfl)
  · exact List.mem_append_left _ hk
  · exact hk

section Outcome

variable (s : RFSCTraceBuilder Λ) (idx : Nat) (a : SymAddr)

theorem length_recompute :
    (s.recomputeCmpxhgSuccess idx a).1.prefixEvents.length =
      s.prefixEvents.length :=
  length_modifyEvent _ _ _

theorem ev_recompute {k : Nat} (hk : k < s.prefixEvents.length) :
    (s.recomputeCmpxhgSuccess idx a).1.ev k =
      if idx = k then { s.ev k with sym := s.recomputedSym idx } else s.ev k :=
  ev_modifyEvent _ _ _ hk

theorem writes_recompute (b : SymAddr) :
    (s.recomputeCmpxhgSuccess idx a).1.writes b =
      if a = b then
        (s.recomputeCmpxhgSuccess idx a).2.redoWrites idx (s.writes b)
      else s.writes b :=
  writes_modifyWrites _ _ _ _

theorem length_undo (log : CmpXhgUndoLog) :
    (s.undoCmpxhgRecomputation log idx a).prefixEvents.length =
      s.prefixEvents.length :=
  length_modifyEvent _ _ _

theorem ev_undo (log : CmpXhgUndoLog) {k : Nat} (hk : k < s.prefixEvents.length) :
    (s.undoCmpxhgRecomputation log idx a).ev k =
      if idx = k then { s.ev k with sym := log.undoSym (s.ev idx).sym }
      else s.ev k :=
  ev_modifyEvent _ _ _ hk

theorem writes_undo (log : CmpXhgUndoLog) (b : SymAddr) :
    (s.undoCmpxhgRecomputation log idx a).writes b =
      if a = b then log.undoWrites idx (s.writes b) else s.writes b :=
  writes_modifyWrites _ _ _ _

end Outcome

/-- The event `k` is in the vector of writes to `a` if it is a store. -/
def Listed (s : RFSCTraceBuilder Λ) (a : SymAddr) (k : Nat) : Prop :=
  (s.ev k).sym.isStore → k ∈ s.writes a

/-- An undo restores the symbolic event and the writes from before the
switch, whatever happened to the other fields in between. -/
theorem undo_recompute {s t : RFSCTraceBuilder Λ} (idx : Nat) {a : SymAddr}
    (hidx : idx < s.prefixEvents.length)
    (hlen : t.prefixEvents.length = s.prefixEvents.length)
    (hlisted : s.Listed a idx)
    (hsym : (t.ev idx).sym = ((s.recomputeCmpxhgSuccess idx a).1.ev idx).sym)
    (hwrites : ∀ b, t.writes b = (s.recomputeCmpxhgSuccess idx a).1.writes b) :
    let t' := t.undoCmpxhgRecomputation (s.recomputeCmpxhgSuccess idx a).2 idx a
    t'.ev idx = { t.ev idx with sym := (s.ev idx).sym } ∧
      ∀ b, t'.writes b = s.writes b := by
  constructor
  · rw [ev_undo _ _ _ _ (hlen ▸ hidx), if_pos rfl, hsym,
      ev_recompute _ _ _ hidx, if_pos rfl]
    exact congrArg (fun sym => { t.ev idx with sym })
      (undoSym_undoLogOf s idx (s.writes a))
  · intro b
    rw [writes_undo, hwrites, writes_recompute]
    by_cases hb : a = b
    · subst hb
      rw [if_pos rfl, if_pos rfl]
      exact undoWrites_redoWrites hlisted
    · rw [if_neg hb, if_neg hb]

/-! ## Reads -/

/-- `s'` differs from `s` in the read-from of `i` at most. -/
structure OnlyReadFrom (i : Nat) (s' s : RFSCTraceBuilder Λ) : Prop
    extends SameRest s' s where
  length : s'.prefixEvents.length = s.prefixEvents.length
  self : i < s.prefixEvents.length → ∃ w, s'.ev i = { s.ev i with readFrom := w }
  others : ∀ k, k < s.prefixEvents.length → k ≠ i → s'.ev k = s.ev k

theorem Unchanged.onlyReadFrom {s s' : RFSCTraceBuilder Λ} (h : Unchanged s' s)
    (i : Nat) : OnlyReadFrom i s' s where
  toSameRest := h.toSameRest
  length := congrArg List.length h.prefixEvents
  self _ := ⟨(s.ev i).readFrom, h.ev i⟩
  others k _ _ := h.ev k

theorem OnlyReadFrom.trans {i : Nat} {s s' s'' : RFSCTraceBuilder Λ}
    (h' : OnlyReadFrom i s'' s') (h : OnlyReadFrom i s' s) :
    OnlyReadFrom i s'' s where
  toSameRest := h'.toSameRest.trans h.toSameRest
  length := h'.length.trans h.length
  self hi := by
    obtain ⟨w, hw⟩ := h.self hi
    obtain ⟨w', hw'⟩ := h'.self (h.length ▸ hi)
    exact ⟨w', by rw [hw', hw]⟩
  others k hk hne := by
    rw [h'.others k (h.length ▸ hk) hne, h.others k hk hne]

/-- An attempt to make `i` read from another event. -/
theorem onlyReadFrom_plain (env : Env Λ) {s : RFSCTraceBuilder Λ} {i : Nat}
    (w : Int) {a : SymAddr} (decision : DecisionNode) (unf : UnfoldingNode)
    (hi : i < s.prefixEvents.length) (hlisted : s.Listed a i) :
    let r := (s.setReadFrom i w).recomputeCmpxhgSuccess i a
    OnlyReadFrom i
      ((r.1.solve env [i] decision unf).undoCmpxhgRecomputation r.2 i a) s := by
  intro r
  have hread : (s.setReadFrom i w).prefixEvents.length = s.prefixEvents.length :=
    length_modifyEvent _ _ _
  have hself : (s.setReadFrom i w).ev i = { s.ev i with readFrom := some w } :=
    (ev_modifyEvent _ _ _ hi).trans (if_pos rfl)
  have hsolve := unchanged_solve env r.1 [i] decision unf
  have hlen : (r.1.solve env [i] decision unf).prefixEvents.length =
      s.prefixEvents.length := by
    rw [hsolve.prefixEvents, length_recompute, hread]
  obtain ⟨hundo, hwrites⟩ := undo_recompute i (s := s.setReadFrom i w)
    (t := r.1.solve env [i] decision unf) (a := a)
    (by rwa [hread]) (hlen.trans hread.symm)
    (by unfold Listed; rw [hself]; exact hlisted)
    (congrArg Event.sym (hsolve.ev i)) hsolve.writes
  constructor
  · exact ⟨hsolve.prefixIdx, hsolve.threads, hsolve.mutexDeadlocks,
      hsolve.belowClocks, hwrites⟩
  · rw [length_undo, hlen]
  · intro _
    refine ⟨some w, ?_⟩
    rw [hundo, hsolve.ev, ev_recompute _ _ _ (by rwa [hread]), if_pos rfl, hself]
  · intro k hk hne
    rw [ev_undo _ _ _ _ (by rwa [hlen]), if_neg (Ne.symm hne), hsolve.ev,
      ev_recompute _ _ _ (by rwa [hread]), if_neg (Ne.symm hne)]
    exact (ev_modifyEvent _ _ _ hk).trans (if_neg (Ne.symm hne))

/-- An attempt to swap `i` with the rmw `j` that reads from it. -/
theorem onlyReadFrom_rmw (env : Env Λ) {s : RFSCTraceBuilder Λ} {i j : Nat}
    (o : Int) {a : SymAddr} (decision : DecisionNode) (unf : UnfoldingNode)
    (hij : i ≠ j) (hi : i < s.prefixEvents.length)
    (hj : j < s.prefixEvents.length) (hreads : (s.ev j).readFrom = some (i : Int))
    (hlistedi : s.Listed a i) (hlistedj : s.Listed a j) :
    let r := ((s.setReadFrom j o).setReadFrom i j).recomputeCmpxhgSuccess j a
    let q := r.1.recomputeCmpxhgSuccess i a
    let t := (q.1.solve env [j, i] decision unf).setReadFrom j i
    OnlyReadFrom i
      ((t.undoCmpxhgRecomputation q.2 i a).undoCmpxhgRecomputation r.2 j a) s := by
  intro r q t
  let s2 := (s.setReadFrom j o).setReadFrom i j
  -- the events behind each step
  have hlen2 : s2.prefixEvents.length = s.prefixEvents.length := by
    show ((s.modifyEvent j _).modifyEvent i _).prefixEvents.length = _
    rw [length_modifyEvent, length_modifyEvent]
  have hev2 : ∀ k, k < s.prefixEvents.length → s2.ev k =
      if i = k then { s.ev k with readFrom := some (j : Int) }
      else if j = k then { s.ev k with readFrom := some o } else s.ev k := by
    intro k hk
    show ((s.modifyEvent j _).modifyEvent i _).ev k = _
    rw [ev_modifyEvent _ _ _ (by rwa [length_modifyEvent]), ev_modifyEvent _ _ _ hk]
    by_cases hki : i = k
    · subst hki
      simp [Ne.symm hij]
    · simp [hki]
  have hlenr : r.1.prefixEvents.length = s.prefixEvents.length :=
    (length_recompute _ _ _).trans hlen2
  have hevr : ∀ k, k < s.prefixEvents.length → r.1.ev k =
      if j = k then { s2.ev k with sym := s2.recomputedSym j } else s2.ev k :=
    fun k hk => ev_recompute _ _ _ (hlen2.symm ▸ hk)
  have hlenq : q.1.prefixEvents.length = s.prefixEvents.length :=
    (length_recompute _ _ _).trans hlenr
  have hevq : ∀ k, k < s.prefixEvents.length → q.1.ev k =
      if i = k then { r.1.ev k with sym := r.1.recomputedSym i } else r.1.ev k :=
    fun k hk => ev_recompute _ _ _ (hlenr.symm ▸ hk)
  have hsolve := unchanged_solve env q.1 [j, i] decision unf
  have hlent : t.prefixEvents.length = s.prefixEvents.length := by
    show ((q.1.solve env [j, i] decision unf).modifyEvent j _).prefixEvents.length = _
    rw [length_modifyEvent, hsolve.prefixEvents, hlenq]
  have hevt : ∀ k, k < s.prefixEvents.length → t.ev k =
      if j = k then { q.1.ev k with readFrom := some (i : Int) } else q.1.ev k := by
    intro k hk
    rw [← hsolve.ev k]
    refine ev_modifyEvent _ _ _ ?_
    rw [hsolve.prefixEvents]
    exact hlenq.symm ▸ hk
  -- the first undo, for `i`
  have hmemi : r.1.Listed a i := by
    intro hstore
    rw [hevr i hi, if_neg (Ne.symm hij), hev2 i hi, if_pos rfl] at hstore
    show i ∈ (((s.setReadFrom j o).setReadFrom i j).recomputeCmpxhgSuccess j
      a).1.writes a
    rw [writes_recompute, if_pos rfl]
    refine mem_redoWrites ?_ hij (hlistedi hstore)
    show (s2.ev j).sym.isStore → j ∈ s.writes a
    rw [hev2 j hj, if_neg hij, if_pos rfl]
    exact hlistedj
  obtain ⟨hundoi, hwritesi⟩ := undo_recompute i (s := r.1) (t := t) (a := a)
    (hlenr.symm ▸ hi) (hlent.trans hlenr.symm) hmemi
    (by rw [hevt i hi, if_neg (Ne.symm hij)]) hsolve.writes
  have hevu : ∀ k, k < s.prefixEvents.length → k ≠ i →
      (t.undoCmpxhgRecomputation q.2 i a).ev k = t.ev k := fun k hk hne =>
    (ev_undo _ _ _ _ (hlent.symm ▸ hk)).trans (if_neg (Ne.symm hne))
  -- the second undo, for `j`
  obtain ⟨hundoj, hwritesj⟩ := undo_recompute j (s := s2)
    (t := t.undoCmpxhgRecomputation q.2 i a) (a := a)
    (hlen2.symm ▸ hj) ((length_undo _ _ _ _).trans (hlent.trans hlen2.symm))
    (by unfold Listed; rw [hev2 j hj, if_neg hij, if_pos rfl]; exact hlistedj)
    (by
      rw [hevu j hj (Ne.symm hij), hevt j hj, if_pos rfl, hevq j hj, if_neg hij])
    hwritesi
  have hevv : ∀ k, k < s.prefixEvents.length → k ≠ j →
      ((t.undoCmpxhgRecomputation q.2 i a).undoCmpxhgRecomputation r.2 j a).ev k =
        (t.undoCmpxhgRecomputation q.2 i a).ev k := fun k hk hne =>
    (ev_undo _ _ _ _ (by rw [length_undo, hlent]; exact hk)).trans
      (if_neg (Ne.symm hne))
  constructor
  · exact ⟨hsolve.prefixIdx, hsolve.threads, hsolve.mutexDeadlocks,
      hsolve.belowClocks, hwritesj⟩
  · rw [length_undo, length_undo, hlent]
  · intro _
    refine ⟨some (j : Int), ?_⟩
    rw [hevv i hi hij, hundoi, hevt i hi, if_neg (Ne.symm hij), hevq i hi,
      if_pos rfl, hevr i hi, if_neg (Ne.symm hij), hev2 i hi, if_pos rfl]
  · intro k hk hne
    by_cases hkj : k = j
    · subst hkj
      rw [hundoj, hevu k hk hne, hevt k hk, if_pos rfl, hevq k hk, if_neg hij,
        hevr k hk, if_pos rfl, hev2 k hk, if_neg hij, if_pos rfl, ← hreads]
    · rw [hevv k hk hkj, hevu k hk hne, hevt k hk, if_neg (Ne.symm hkj),
        hevq k hk, if_neg (Ne.symm hne), hevr k hk, if_neg (Ne.symm hkj),
        hev2 k hk, if_neg (Ne.symm hne), if_neg (Ne.symm hkj)]

/-- What the attempts for the load `i` need of an event `j`. -/
structure Candidate (s : RFSCTraceBuilder Λ) (a : SymAddr) (j : Nat) : Prop where
  lt : j < s.prefixEvents.length
  listed : s.Listed a j

theorem Candidate.of_onlyReadFrom {i j : Nat} {s s' : RFSCTraceBuilder Λ}
    {a : SymAddr} (h : s.Candidate a j) (honly : OnlyReadFrom i s' s) :
    s'.Candidate a j where
  lt := honly.length.symm ▸ h.lt
  listed := by
    intro hstore
    rw [honly.writes]
    apply h.listed
    by_cases hj : j = i
    · subst hj
      obtain ⟨w, hw⟩ := honly.self h.lt
      rwa [hw] at hstore
    · rwa [honly.others j h.lt hj] at hstore

theorem onlyReadFrom_tryReadFromRmw (env : Env Λ) {s : RFSCTraceBuilder Λ}
    {i j : Nat} {a : SymAddr} (o : Int) (decision : DecisionNode) (hij : i ≠ j)
    (hi : s.Candidate a i) (hj : s.Candidate a j) :
    OnlyReadFrom i (s.tryReadFromRmw env i a o decision j) s := by
  unfold tryReadFromRmw
  split
  · exact (Unchanged.refl s).onlyReadFrom i
  · next hreads =>
    simp only
    split
    · exact (Unchanged.refl s).onlyReadFrom i
    · have halloc := (unchanged_allocUnf s decision
        (s.unfoldAlternative j (s.ev i).event.readFrom)).onlyReadFrom i
      split
      · exact halloc
      · have hi' := hi.of_onlyReadFrom halloc
        have hj' := hj.of_onlyReadFrom halloc
        have hreads' : ((s.allocUnf decision (s.unfoldAlternative j
            (s.ev i).event.readFrom)).ev j).readFrom = some (i : Int) :=
          not_not.mp hreads
        have hrmw := onlyReadFrom_rmw env o decision (s.unfoldAlternative j
          (s.ev i).event.readFrom) hij hi'.lt hj'.lt hreads' hi'.listed hj'.listed
        exact hrmw.trans halloc

theorem onlyReadFrom_tryReadFrom (env : Env Λ) {s : RFSCTraceBuilder Λ}
    {i : Nat} {a : SymAddr} (o : Int) (decision : DecisionNode) (j : Int)
    (hi : s.Candidate a i) (hj : j ≠ -1 → s.Candidate a j.toNat) :
    OnlyReadFrom i (s.tryReadFrom env i a o decision j) s := by
  unfold tryReadFrom
  split
  · exact (Unchanged.refl s).onlyReadFrom i
  · split
    · next hrmw =>
      split
      · exact onlyReadFrom_tryReadFromRmw env o decision (by omega) hi (hj hrmw.1)
      · exact (Unchanged.refl s).onlyReadFrom i
    · simp only
      split
      · exact (Unchanged.refl s).onlyReadFrom i
      · have halloc := (unchanged_allocUnf s decision (s.eventOf j)).onlyReadFrom i
        split
        · exact halloc
        · have hi' := hi.of_onlyReadFrom halloc
          have hplain := onlyReadFrom_plain env j decision (s.eventOf j) hi'.lt
            hi'.listed
          exact hplain.trans halloc

/-- A loop of attempts for `i`. -/
theorem onlyReadFrom_foldl {β : Type} {i : Nat} {a : SymAddr}
    {f : RFSCTraceBuilder Λ → β → RFSCTraceBuilder Λ} (xs : List β)
    {P : RFSCTraceBuilder Λ → β → Prop}
    (hkeep : ∀ s s' x, OnlyReadFrom i s' s → P s x → P s' x)
    (hstep : ∀ s x, x ∈ xs → s.Candidate a i → P s x → OnlyReadFrom i (f s x) s)
    (s : RFSCTraceBuilder Λ) (hi : s.Candidate a i) (hs : ∀ x ∈ xs, P s x) :
    OnlyReadFrom i (xs.foldl f s) s := by
  induction xs generalizing s with
  | nil => exact (Unchanged.refl s).onlyReadFrom i
  | cons x xs ih =>
    have hx := hstep s x List.mem_cons_self hi (hs x List.mem_cons_self)
    refine OnlyReadFrom.trans (ih (fun s y hy => hstep s y (List.mem_cons_of_mem x hy))
      (f s x) (hi.of_onlyReadFrom hx) fun y hy => ?_) hx
    exact hkeep s (f s x) y hx (hs y (List.mem_cons_of_mem x hy))

/-- The tables list events of the trace, by the addresses that they access. -/
structure Tables.Fit (tables : Tables) (s : RFSCTraceBuilder Λ) : Prop where
  writes : ∀ a p j, j ∈ getD (tables.writesByProcessAndAddress.getD p []) a [] →
    s.Candidate a j
  cmpxhgfails : ∀ a j, j ∈ getD tables.cmpxhgfailByAddress a [] → s.Candidate a j

theorem mem_visibleWrites {s : RFSCTraceBuilder Λ} {tables : Tables} {i p j : Nat}
    {a : SymAddr} (h : j ∈ s.visibleWrites tables i a p) :
    j ∈ getD (tables.writesByProcessAndAddress.getD p []) a [] :=
  List.mem_of_mem_take (List.mem_of_mem_drop h)

theorem Tables.Fit.of_onlyReadFrom {tables : Tables} {i : Nat}
    {s s' : RFSCTraceBuilder Λ} (h : tables.Fit s) (honly : OnlyReadFrom i s' s) :
    tables.Fit s' where
  writes a p j hj := (h.writes a p j hj).of_onlyReadFrom honly
  cmpxhgfails a j hj := (h.cmpxhgfails a j hj).of_onlyReadFrom honly

theorem onlyReadFrom_setReadFrom (s : RFSCTraceBuilder Λ) (i : Nat) (w : Int) :
    OnlyReadFrom i (s.setReadFrom i w) s where
  toSameRest := sameRest_modifyEvent _ _ _
  length := length_modifyEvent _ _ _
  self hi := ⟨some w, (ev_modifyEvent _ _ _ hi).trans (if_pos rfl)⟩
  others _ hk hne := (ev_modifyEvent _ _ _ hk).trans (if_neg (Ne.symm hne))

/-- The attempts with the visible writes of one thread. -/
theorem onlyReadFrom_tryThread (env : Env Λ) {s : RFSCTraceBuilder Λ} {i : Nat}
    {a : SymAddr} (o : Int) (decision : DecisionNode) (ws : List Nat)
    (hi : s.Candidate a i) (hws : ∀ w ∈ ws, s.Candidate a w) :
    OnlyReadFrom i
      (ws.foldl (fun s (w : Nat) => s.tryReadFrom env i a o decision w) s) s := by
  refine onlyReadFrom_foldl ws (P := fun s w => s.Candidate a w)
    (fun s s' w honly h => h.of_onlyReadFrom honly) (fun s w _ hi hw => ?_) s hi hws
  exact onlyReadFrom_tryReadFrom env o decision w hi fun _ => hw

theorem onlyReadFrom_tryWrites (env : Env Λ) {tables : Tables}
    {s : RFSCTraceBuilder Λ} {i : Nat} {a : SymAddr} (o : Int)
    (decision : DecisionNode) (hfit : tables.Fit s) (hi : s.Candidate a i) :
    OnlyReadFrom i (s.tryWrites env tables i a o decision) s := by
  refine onlyReadFrom_foldl _ (P := fun s _ => tables.Fit s)
    (fun s s' _ honly h => h.of_onlyReadFrom honly) (fun s p _ hi hfit => ?_)
    s hi fun _ _ => hfit
  exact onlyReadFrom_tryThread env o decision _ hi
    fun w hw => hfit.writes a p w (mem_visibleWrites hw)

theorem onlyReadFrom_tryCmpxhgfails (env : Env Λ) {s : RFSCTraceBuilder Λ}
    {i : Nat} {a : SymAddr} (o : Int) (decision : DecisionNode) (js : List Nat)
    (hi : s.Candidate a i) (hjs : ∀ j ∈ js, s.Candidate a j) :
    OnlyReadFrom i (s.tryCmpxhgfails env i a o decision js) s := by
  refine onlyReadFrom_foldl js (P := fun s j => s.Candidate a j)
    (fun s s' j honly h => h.of_onlyReadFrom honly) (fun s j _ hi hj => ?_)
    s hi hjs
  split
  · next h => exact onlyReadFrom_tryReadFromRmw env o decision (Nat.ne_of_lt h.1) hi hj
  · exact (Unchanged.refl s).onlyReadFrom i

/-- The treatment of a load touches its own read-from only, and leaves it set
to the value that it reads as at the start. -/
theorem treatLoad_spec (env : Env Λ) {tables : Tables} {s : RFSCTraceBuilder Λ}
    {i : Nat} (hfit : tables.Fit s) (hi : s.Candidate (addrOf (s.getAddr i)) i) :
    OnlyReadFrom i (s.treatLoad env tables i) s ∧
      ((s.treatLoad env tables i).ev i).readFrom = some (s.readFromOf i) := by
  unfold treatLoad
  simp only
  have htouch := (unchanged_touch s (addrOf (s.getAddr i))).onlyReadFrom i
  rw [show (s.touch (addrOf (s.getAddr i))).readFromOf i = s.readFromOf i from rfl]
  generalize s.touch (addrOf (s.getAddr i)) = s0 at htouch ⊢
  generalize addrOf (s.getAddr i) = a at hi
  have hwrites := (onlyReadFrom_tryWrites env (s.readFromOf i) (s0.decisionOf i)
    (hfit.of_onlyReadFrom htouch) (hi.of_onlyReadFrom htouch)).trans htouch
  generalize s0.tryWrites env tables i a (s.readFromOf i) (s0.decisionOf i) = s1
    at hwrites ⊢
  have hinit := (onlyReadFrom_tryReadFrom env (s.readFromOf i) (s0.decisionOf i)
    (-1) (hi.of_onlyReadFrom hwrites) (fun h => absurd rfl h)).trans hwrites
  generalize s1.tryReadFrom env i a (s.readFromOf i) (s0.decisionOf i) (-1) = s2
    at hinit ⊢
  have hfails : OnlyReadFrom i
      (if (s2.ev i).sym.isStore then
        s2.tryCmpxhgfails env i a (s.readFromOf i) (s0.decisionOf i)
          (getD tables.cmpxhgfailByAddress a []) else s2) s := by
    split
    · exact (onlyReadFrom_tryCmpxhgfails env _ _ _ (hi.of_onlyReadFrom hinit)
        fun j hj => (hfit.cmpxhgfails a j hj).of_onlyReadFrom hinit).trans hinit
    · exact hinit
  generalize (if (s2.ev i).sym.isStore then
    s2.tryCmpxhgfails env i a (s.readFromOf i) (s0.decisionOf i)
      (getD tables.cmpxhgfailByAddress a []) else s2) = s3 at hfails ⊢
  constructor
  · exact (onlyReadFrom_setReadFrom s3 i _).trans hfails
  · rw [setReadFrom, ev_modifyEvent _ _ _ (hfails.length.symm ▸ hi.lt), if_pos rfl]

/-! ## Mutexes -/

theorem OnlyReadFrom.sym {i : Nat} {s s' : RFSCTraceBuilder Λ}
    (h : OnlyReadFrom i s' s) (k : Nat) : (s'.ev k).sym = (s.ev k).sym := by
  by_cases hk : k < s.prefixEvents.length
  · by_cases hi : k = i
    · subst hi
      obtain ⟨w, hw⟩ := h.self hk
      rw [hw]
    · rw [h.others k hk hi]
  · unfold ev
    rw [List.getD_eq_getElem?_getD, List.getD_eq_getElem?_getD,
      List.getElem?_eq_none (by rw [h.length]; omega),
      List.getElem?_eq_none (by omega)]

/-- The read-from of `i` decides. -/
theorem OnlyReadFrom.unchanged_iff {i : Nat} {s s' : RFSCTraceBuilder Λ}
    (h : OnlyReadFrom i s' s) (hi : i < s.prefixEvents.length) :
    Unchanged s' s ↔ (s'.ev i).readFrom = (s.ev i).readFrom := by
  constructor
  · intro hsame
    rw [hsame.ev]
  · intro hread
    refine ⟨h.toSameRest, prefixEvents_ext h.length fun k hk => ?_⟩
    by_cases hki : k = i
    · subst hki
      obtain ⟨w, hw⟩ := h.self hk
      rw [hw] at hread ⊢
      rw [show w = (s.ev k).readFrom from hread]
    · exact h.others k hk hki

/-- A swap touches the read-from of `j` only. -/
theorem swapAttempt_spec (env : Env Λ) {s : RFSCTraceBuilder Λ} {i j : Nat}
    (back : Int) (allowed : Bool) (hij : i ≠ j) (hi : i < s.prefixEvents.length)
    (hj : j < s.prefixEvents.length) :
    OnlyReadFrom j (s.swapAttempt env i j back allowed) s ∧
      ((s.swapAttempt env i j back allowed).ev j).readFrom =
        if s.Attempted i j allowed then some back else (s.ev j).readFrom := by
  have hrest := sameRest_swapAttempt env s i j back allowed
  have hevents := prefixEvents_swapAttempt env s back allowed hij hi hj
  generalize s.swapAttempt env i j back allowed = s' at hrest hevents ⊢
  by_cases hatt : s.Attempted i j allowed
  · rw [if_pos hatt] at hevents ⊢
    have hev : ∀ k, s'.ev k = (s.setReadFrom j back).ev k := by
      intro k
      unfold ev
      rw [hevents]
    have honly := onlyReadFrom_setReadFrom s j back
    constructor
    · refine ⟨hrest, (congrArg List.length hevents).trans honly.length,
        fun hj => ?_, fun k hk hne => ?_⟩
      · rw [hev]
        exact honly.self hj
      · rw [hev]
        exact honly.others k hk hne
    · rw [hev, setReadFrom, ev_modifyEvent _ _ _ hj, if_pos rfl]
  · rw [if_neg hatt] at hevents ⊢
    have hsame : Unchanged s' s := ⟨hrest, hevents⟩
    exact ⟨hsame.onlyReadFrom j, by rw [hsame.ev]⟩

theorem childrenUnfSet_solve (env : Env Λ) (s : RFSCTraceBuilder Λ)
    (changed : List Nat) (decision : DecisionNode) (unf : UnfoldingNode) :
    (s.solve env changed decision unf).childrenUnfSet = s.childrenUnfSet := by
  have htouch : ∀ (addrs : List SymAddr) (s : RFSCTraceBuilder Λ),
      (addrs.foldl touch s).childrenUnfSet = s.childrenUnfSet := by
    intro addrs
    induction addrs with
    | nil => exact fun _ => rfl
    | cons a addrs ih => exact fun s => ih (s.touch a)
  unfold solve
  simp only
  split
  · exact htouch _ _
  · exact htouch _ _

/-- A swap adds its alternative to the known ones. -/
theorem isKnown_swapAttempt (env : Env Λ) (s : RFSCTraceBuilder Λ) (i j : Nat)
    (back : Int) (allowed : Bool) (unf : UnfoldingNode) :
    (s.swapAttempt env i j back allowed).isKnown (s.decisionOf i) unf ↔
      s.isKnown (s.decisionOf i) unf ∨
        unf = s.unfoldAlternative j (s.ev i).event.readFrom := by
  have hset : (s.swapAttempt env i j back allowed).childrenUnfSet =
      if s.isKnown (s.decisionOf i)
          (s.unfoldAlternative j (s.ev i).event.readFrom) then s.childrenUnfSet
      else (parentOf (s.decisionOf i),
        s.unfoldAlternative j (s.ev i).event.readFrom) :: s.childrenUnfSet := by
    unfold swapAttempt
    simp only
    split
    · rfl
    · split
      · rfl
      · exact childrenUnfSet_solve _ _ _ _ _
  unfold isKnown at hset ⊢
  rw [hset]
  split
  · next hknown =>
    constructor
    · exact .inl
    · rintro (h | rfl)
      · exact h
      · exact hknown
  · simp [or_comm]

/-- The second attempt behind the attempt to swap `i` and `j`. -/
def AttemptedNext (s : RFSCTraceBuilder Λ) (i j relock : Nat) (allowed : Bool) :
    Prop :=
  s.Attempted i relock allowed ∧
    s.unfoldAlternative relock (s.ev i).event.readFrom ≠
      s.unfoldAlternative j (s.ev i).event.readFrom

instance (s : RFSCTraceBuilder Λ) (i j relock : Nat) (allowed : Bool) :
    Decidable (s.AttemptedNext i j relock allowed) :=
  inferInstanceAs (Decidable (_ ∧ _))

theorem attempted_swapAttempt (env : Env Λ) {s : RFSCTraceBuilder Λ}
    {i j relock : Nat} (back : Int) (allowed allowed' : Bool) (hij : i ≠ j)
    (hi : i < s.prefixEvents.length) (hj : j < s.prefixEvents.length)
    (hrelock : relock < s.prefixEvents.length) (hne : relock ≠ j) :
    (s.swapAttempt env i j back allowed).Attempted i relock allowed' ↔
      s.AttemptedNext i j relock allowed' := by
  have honly := (swapAttempt_spec env back allowed hij hi hj).1
  have hevi := honly.others i hi hij
  have hevr := honly.others relock hrelock hne
  unfold AttemptedNext Attempted
  have hdecision : (s.swapAttempt env i j back allowed).decisionOf i =
      s.decisionOf i := by
    unfold decisionOf
    rw [hevi]
  have halt : (s.swapAttempt env i j back allowed).unfoldAlternative relock
      ((s.swapAttempt env i j back allowed).ev i).event.readFrom =
      s.unfoldAlternative relock (s.ev i).event.readFrom := by
    unfold unfoldAlternative
    rw [hevi, hevr, honly.threads]
  rw [hdecision, halt, isKnown_swapAttempt]
  tauto

/-- What the table of writes holds in every round of the loop. -/
structure Collected (s : RFSCTraceBuilder Λ) : Prop where
  sorted : ∀ a, (s.writes a).Pairwise (· < ·)
  lt : ∀ a, ∀ j ∈ s.writes a, j < s.prefixEvents.length
  listed : ∀ k, k < s.prefixEvents.length → s.Listed (addrOf (s.getAddr k)) k

/-- The events that the treatment of the mutex access `i` writes to already
read from where they are left to read from: the next access from `i`, and the
lock that is tried behind it from the unlock in front of it. -/
def SwapsRestorable (s : RFSCTraceBuilder Λ) (i : Nat) : Prop :=
  match s.nextAccesses i with
  | [] => True
  | j :: next =>
    (s.ev i).sym.isUnlock && (s.ev j).sym.isLock ∨
      (s.Attempted i j (s.canSwapByVclocks i j) →
        (s.ev j).readFrom = some (i : Int)) ∧
      ((s.ev i).sym.doesLock →
        match s.nextRelock (j :: next) with
        | some (unlock, relock) =>
          s.AttemptedNext i j relock (s.canSwapLockByVclocks i unlock relock) →
            (s.ev relock).readFrom = some (unlock : Int)
        | none => True)

/-- The lock that is found is behind the first access. -/
theorem mem_of_nextRelock {s : RFSCTraceBuilder Λ} {j : Nat} {next : List Nat}
    {unlock relock : Nat} (h : s.nextRelock (j :: next) = some (unlock, relock)) :
    relock ∈ next := by
  unfold nextRelock at h
  split at h
  · next u r rest hdrop =>
    split at h
    · cases h
      have hsuffix : (unlock :: relock :: rest) <:+ (j :: next) :=
        hdrop ▸ List.dropWhile_suffix _
      rcases List.suffix_cons_iff.mp hsuffix with heq | hsuffix
      · cases heq
        exact List.mem_cons_self
      · exact hsuffix.mem (List.mem_cons_of_mem _ List.mem_cons_self)
    · cases h
  · cases h

/-- The accesses that are looked at are in order and behind `i`. -/
theorem Collected.nextAccesses {s : RFSCTraceBuilder Λ} (h : s.Collected)
    (i : Nat) : (i :: s.nextAccesses i).Pairwise (· < ·) := by
  have hsuffix : s.nextAccesses i <:+ s.writes (addrOf (s.getAddr i)) :=
    List.dropWhile_suffix _
  have hsorted : (s.nextAccesses i).Pairwise (· < ·) :=
    (h.sorted _).sublist hsuffix.sublist
  refine List.pairwise_cons.mpr ⟨fun k hk => ?_, hsorted⟩
  cases hnext : s.nextAccesses i with
  | nil =>
    rw [hnext] at hk
    cases hk
  | cons j next =>
    have hj : i < j := by
      have hhead := List.head?_dropWhile_not (fun x => decide (x ≤ i))
        (s.writes (addrOf (s.getAddr i)))
      rw [show List.dropWhile (fun x => decide (x ≤ i))
        (s.writes (addrOf (s.getAddr i))) = j :: next from hnext] at hhead
      simpa using hhead
    rw [hnext] at hk hsorted
    rcases List.mem_cons.mp hk with rfl | hk
    · exact hj
    · exact Nat.lt_trans hj ((List.pairwise_cons.mp hsorted).1 k hk)

/-- The trace has threads blocked on a mutex behind its last event only.
`try_swap_blocked` asserts it. -/
def BlockedAtEnd (s : RFSCTraceBuilder Λ) : Prop :=
  s.mutexDeadlocks ≠ [] → s.prefixIdx + 1 = s.prefixEvents.length

theorem unchanged_blockedLoop (env : Env Λ) {i : Nat} (addr : SymAddrSize)
    (jps : List Nat) {s : RFSCTraceBuilder Λ} (h : s.Blockable i) :
    Unchanged (jps.foldl (trySwapBlocked env i addr) s) s := by
  induction jps generalizing s with
  | nil => exact .refl s
  | cons jp jps ih =>
    have hstep := unchanged_trySwapBlocked env addr jp h
    refine (ih ⟨?_, ?_, ?_⟩).trans hstep
    · rw [hstep.prefixEvents]
      exact h.lt
    · rw [hstep.prefixEvents, hstep.prefixIdx]
      exact h.atEnd
    · rw [hstep.ev]
      exact h.unpinned

theorem nextRelock_congr {s s' : RFSCTraceBuilder Λ}
    (h : ∀ k, (s'.ev k).sym = (s.ev k).sym) (next : List Nat) :
    s'.nextRelock next = s.nextRelock next := by
  unfold nextRelock
  simp only [h]

/-- Two events whose read-from may have changed, one after the other one. -/
theorem OnlyReadFrom.unchanged_trans_iff {i j : Nat}
    {s s' s'' : RFSCTraceBuilder Λ} (h' : OnlyReadFrom j s'' s')
    (h : OnlyReadFrom i s' s) (hi : i < s.prefixEvents.length) (hij : i ≠ j) :
    Unchanged s'' s ↔ Unchanged s' s ∧ Unchanged s'' s' := by
  constructor
  · intro hsame
    have hfirst : Unchanged s' s := by
      rw [h.unchanged_iff hi, ← h'.others i (h.length.symm ▸ hi) hij, hsame.ev]
    refine ⟨hfirst, h'.toSameRest, ?_⟩
    rw [hsame.prefixEvents, hfirst.prefixEvents]
  · intro ⟨hfirst, hsecond⟩
    exact hsecond.trans hfirst

/-- A swap leaves the trace as it was if it is not attempted, or if `j` reads
from where it is left to read from. -/
theorem unchanged_swapAttempt_iff (env : Env Λ) {s : RFSCTraceBuilder Λ}
    {i j : Nat} (back : Int) (allowed : Bool) (hij : i ≠ j)
    (hi : i < s.prefixEvents.length) (hj : j < s.prefixEvents.length) :
    Unchanged (s.swapAttempt env i j back allowed) s ↔
      (s.Attempted i j allowed → (s.ev j).readFrom = some back) := by
  obtain ⟨honly, hread⟩ := swapAttempt_spec env back allowed hij hi hj
  rw [honly.unchanged_iff hj, hread]
  split
  · next hatt => simp [hatt, eq_comm]
  · next hatt => simp [hatt]

/-- The swaps of a mutex access, for the accesses behind it. -/
theorem unchanged_swaps_iff (env : Env Λ) {s : RFSCTraceBuilder Λ}
    {i j : Nat} {next : List Nat} (hi : i < s.prefixEvents.length)
    (hordered : (i :: j :: next).Pairwise (· < ·))
    (hlt : ∀ k ∈ j :: next, k < s.prefixEvents.length) :
    Unchanged
        (if !((s.trySwap env i j).ev i).sym.doesLock then s.trySwap env i j
        else
          match (s.trySwap env i j).nextRelock (j :: next) with
          | some (unlock, relock) =>
            (s.trySwap env i j).trySwapLock env i unlock relock
          | none => s.trySwap env i j) s ↔
      (s.Attempted i j (s.canSwapByVclocks i j) →
        (s.ev j).readFrom = some (i : Int)) ∧
      ((s.ev i).sym.doesLock →
        match s.nextRelock (j :: next) with
        | some (unlock, relock) =>
          s.AttemptedNext i j relock (s.canSwapLockByVclocks i unlock relock) →
            (s.ev relock).readFrom = some (unlock : Int)
        | none => True) := by
  obtain ⟨hbefore, hsorted⟩ := List.pairwise_cons.mp hordered
  have hij : i ≠ j := Nat.ne_of_lt (hbefore j List.mem_cons_self)
  have hj := hlt j List.mem_cons_self
  have honly := (swapAttempt_spec env (i : Int) (s.canSwapByVclocks i j) hij hi hj).1
  have hfirst := unchanged_swapAttempt_iff env (i : Int) (s.canSwapByVclocks i j)
    hij hi hj
  have hsym : ∀ k, ((s.trySwap env i j).ev k).sym = (s.ev k).sym := honly.sym
  rw [nextRelock_congr hsym, hsym]
  by_cases hlock : (s.ev i).sym.doesLock
  · simp only [hlock, Bool.not_true, Bool.false_eq_true, if_false, true_implies]
    cases hrelock : s.nextRelock (j :: next) with
    | none => exact hfirst.trans (by simp)
    | some p =>
      obtain ⟨unlock, relock⟩ := p
      have hmem := mem_of_nextRelock hrelock
      have hjr : j ≠ relock :=
        Nat.ne_of_lt ((List.pairwise_cons.mp hsorted).1 relock hmem)
      have hir : i ≠ relock :=
        Nat.ne_of_lt (hbefore relock (List.mem_cons_of_mem j hmem))
      have hr := hlt relock (List.mem_cons_of_mem j hmem)
      have hlen := honly.length
      have hi' : i < (s.trySwap env i j).prefixEvents.length := hlen.symm ▸ hi
      have hr' : relock < (s.trySwap env i j).prefixEvents.length :=
        hlen.symm ▸ hr
      have hclock : (s.trySwap env i j).canSwapLockByVclocks i unlock relock =
          s.canSwapLockByVclocks i unlock relock := by
        have hevi := honly.others i hi hij
        have hevr := honly.others relock hr (Ne.symm hjr)
        unfold canSwapLockByVclocks
        exact congrArg₂ (fun e f => !happensBefore e f.aboveClock) hevi hevr
      have hsecond := unchanged_swapAttempt_iff env (unlock : Int)
        ((s.trySwap env i j).canSwapLockByVclocks i unlock relock) hir hi' hr'
      have honly' := (swapAttempt_spec env (unlock : Int)
        ((s.trySwap env i j).canSwapLockByVclocks i unlock relock) hir hi' hr').1
      have hattempted : (s.trySwap env i j).Attempted i relock
          ((s.trySwap env i j).canSwapLockByVclocks i unlock relock) ↔
          s.AttemptedNext i j relock (s.canSwapLockByVclocks i unlock relock) := by
        rw [hclock]
        exact attempted_swapAttempt env _ _ _ hij hi hj hr (Ne.symm hjr)
      have hreadr : ((s.trySwap env i j).ev relock).readFrom =
          (s.ev relock).readFrom :=
        congrArg Event.readFrom (honly.others relock hr (Ne.symm hjr))
      rw [hattempted, hreadr] at hsecond
      exact (honly'.unchanged_trans_iff honly hj hjr).trans
        (and_congr hfirst hsecond)
  · simp only [hlock, Bool.not_false, if_true, Bool.false_eq_true, false_implies,
      and_true]
    exact hfirst

/-- The treatment of an access to a mutex leaves the trace as it was if and
only if its swaps are restorable. -/
theorem unchanged_treatLock_iff (env : Env Λ) {s : RFSCTraceBuilder Λ} {i : Nat}
    (h : s.Collected) (hend : s.BlockedAtEnd) (hi : i < s.prefixEvents.length)
    (hpinned : (s.ev i).pinned = false) :
    Unchanged (s.treatLock env i) s ↔ s.SwapsRestorable i := by
  unfold treatLock SwapsRestorable
  simp only
  have hordered := h.nextAccesses i
  have hmem : ∀ k ∈ s.nextAccesses i, k < s.prefixEvents.length := fun k hk =>
    h.lt _ k ((List.dropWhile_suffix _).mem hk)
  have htouch := unchanged_touch s (addrOf (s.getAddr i))
  have hnext : (s.touch (addrOf (s.getAddr i))).nextAccesses i =
      s.nextAccesses i :=
    congrArg (List.dropWhile _) (htouch.writes _)
  have hbehind : ∀ s', Unchanged s' s ↔
      Unchanged s' (s.touch (addrOf (s.getAddr i))) := fun s' =>
    ⟨fun hs => ⟨⟨hs.prefixIdx, hs.threads, hs.mutexDeadlocks, hs.belowClocks,
      fun a => (hs.writes a).trans (htouch.writes a).symm⟩, hs.prefixEvents⟩,
      fun hs => hs.trans htouch⟩
  rw [hnext]
  cases hlist : s.nextAccesses i with
  | nil =>
    simp only [iff_true]
    split
    · by_cases hblocked : s.mutexDeadlocks = []
      · rw [show (s.touch (addrOf (s.getAddr i))).mutexDeadlocks = [] from hblocked]
        exact htouch
      · have hblockable : (s.touch (addrOf (s.getAddr i))).Blockable i :=
          ⟨hi, hend hblocked, hpinned⟩
        exact (unchanged_blockedLoop env _ _ hblockable).trans htouch
    · exact htouch
  | cons j next =>
    rw [hlist] at hordered hmem
    show Unchanged (if (s.ev i).sym.isUnlock && (s.ev j).sym.isLock then _ else _)
      s ↔ _
    by_cases hskip : (s.ev i).sym.isUnlock && (s.ev j).sym.isLock
    · simp only [hskip, if_true, true_or, iff_true]
      exact htouch
    · rw [if_neg hskip, hbehind]
      simp only [hskip, Bool.false_eq_true, false_or]
      exact unchanged_swaps_iff env (s := s.touch (addrOf (s.getAddr i))) hi
        hordered hmem

/-! ## The rounds of the loop -/

/-- The trace is as it was, but for the read-from of its events. -/
structure SameButReads (s' s : RFSCTraceBuilder Λ) : Prop
    extends SameRest s' s where
  length : s'.prefixEvents.length = s.prefixEvents.length
  events : ∀ k, k < s.prefixEvents.length →
    ∃ w, s'.ev k = { s.ev k with readFrom := w }

theorem SameButReads.trans {s s' s'' : RFSCTraceBuilder Λ}
    (h' : SameButReads s'' s') (h : SameButReads s' s) : SameButReads s'' s where
  toSameRest := h'.toSameRest.trans h.toSameRest
  length := h'.length.trans h.length
  events k hk := by
    obtain ⟨w, hw⟩ := h.events k hk
    obtain ⟨w', hw'⟩ := h'.events k (h.length.symm ▸ hk)
    exact ⟨w', by rw [hw', hw]⟩

theorem OnlyReadFrom.sameButReads {i : Nat} {s s' : RFSCTraceBuilder Λ}
    (h : OnlyReadFrom i s' s) : SameButReads s' s where
  toSameRest := h.toSameRest
  length := h.length
  events k hk := by
    by_cases hki : k = i
    · subst hki
      exact h.self hk
    · exact ⟨(s.ev k).readFrom, h.others k hk hki⟩

theorem Unchanged.sameButReads {s s' : RFSCTraceBuilder Λ} (h : Unchanged s' s) :
    SameButReads s' s :=
  (h.onlyReadFrom 0).sameButReads

theorem SameButReads.sym {s s' : RFSCTraceBuilder Λ} (h : SameButReads s' s)
    {k : Nat} (hk : k < s.prefixEvents.length) : (s'.ev k).sym = (s.ev k).sym := by
  obtain ⟨w, hw⟩ := h.events k hk
  rw [hw]

theorem SameButReads.candidate {s s' : RFSCTraceBuilder Λ} (h : SameButReads s' s)
    {a : SymAddr} {j : Nat} (hj : s.Candidate a j) : s'.Candidate a j where
  lt := h.length.symm ▸ hj.lt
  listed := by
    intro hstore
    rw [h.sym hj.lt] at hstore
    rw [h.writes]
    exact hj.listed hstore

theorem SameButReads.fit {s s' : RFSCTraceBuilder Λ} (h : SameButReads s' s)
    {tables : Tables} (hfit : tables.Fit s) : tables.Fit s' where
  writes a p j hj := h.candidate (hfit.writes a p j hj)
  cmpxhgfails a j hj := h.candidate (hfit.cmpxhgfails a j hj)

theorem SameButReads.collected {s s' : RFSCTraceBuilder Λ}
    (h : SameButReads s' s) (hs : s.Collected) : s'.Collected where
  sorted a := by
    rw [h.writes]
    exact hs.sorted a
  lt a j hj := by
    rw [h.writes] at hj
    rw [h.length]
    exact hs.lt a j hj
  listed k hk := by
    rw [h.length] at hk
    have haddr : s'.getAddr k = s.getAddr k := by
      unfold getAddr
      rw [h.sym hk]
    rw [haddr]
    exact (h.candidate ⟨hk, hs.listed k hk⟩).listed

theorem SameButReads.blockedAtEnd {s s' : RFSCTraceBuilder Λ}
    (h : SameButReads s' s) (hs : s.BlockedAtEnd) : s'.BlockedAtEnd := by
  intro hblocked
  rw [h.mutexDeadlocks] at hblocked
  rw [h.prefixIdx, h.length]
  exact hs hblocked

/-- What holds in front of each round of the loop. -/
structure LoopInv (tables : Tables) (s : RFSCTraceBuilder Λ) : Prop where
  collected : s.Collected
  fit : tables.Fit s
  blocked : s.BlockedAtEnd

/-- The condition on the event `i` under which its treatment leaves the trace
as it was. -/
def Restorable (s : RFSCTraceBuilder Λ) (i : Nat) : Prop :=
  (s.ev i).pinned ∨
    if (s.ev i).sym.isLockType then s.SwapsRestorable i
    else (s.ev i).sym.isLoad → (s.ev i).readFrom ≠ none

theorem unchanged_treat_iff (env : Env Λ) {tables : Tables}
    {s : RFSCTraceBuilder Λ} {i : Nat} (h : LoopInv tables s)
    (hi : i < s.prefixEvents.length) :
    Unchanged (s.treat env tables i) s ↔ s.Restorable i := by
  unfold treat Restorable
  by_cases hpinned : (s.ev i).pinned
  · simp only [hpinned, if_true, true_or, iff_true]
    exact .refl s
  · rw [if_neg hpinned]
    by_cases htype : (s.ev i).sym.isLockType
    · simp only [hpinned, htype, if_true, Bool.false_eq_true, false_or]
      exact unchanged_treatLock_iff env h.collected h.blocked hi
        (Bool.eq_false_iff.mpr hpinned)
    · by_cases hload : (s.ev i).sym.isLoad
      · obtain ⟨honly, hread⟩ := treatLoad_spec env h.fit
          ⟨hi, h.collected.listed i hi⟩
        simp only [hpinned, htype, hload, if_true, if_false, Bool.false_eq_true,
          false_or, true_implies]
        rw [honly.unchanged_iff hi, hread, readFromOf]
        cases (s.ev i).readFrom <;> simp
      · simp only [hpinned, htype, hload, if_false, Bool.false_eq_true, false_or,
          false_implies, iff_true]
        exact .refl s

theorem sameButReads_swapAttempt (env : Env Λ) {s : RFSCTraceBuilder Λ}
    {i j : Nat} (back : Int) (allowed : Bool) (hij : i ≠ j)
    (hi : i < s.prefixEvents.length) (hj : j < s.prefixEvents.length) :
    SameButReads (s.swapAttempt env i j back allowed) s :=
  (swapAttempt_spec env back allowed hij hi hj).1.sameButReads

/-- Whatever happens, the treatment of a mutex access changes read-froms
only. -/
theorem sameButReads_treatLock (env : Env Λ) {s : RFSCTraceBuilder Λ} {i : Nat}
    (h : s.Collected) (hend : s.BlockedAtEnd) (hi : i < s.prefixEvents.length)
    (hpinned : (s.ev i).pinned = false) :
    SameButReads (s.treatLock env i) s := by
  cases hlist : s.nextAccesses i with
  | nil =>
    have hrestorable : s.SwapsRestorable i := by
      unfold SwapsRestorable
      rw [hlist]
      trivial
    exact ((unchanged_treatLock_iff env h hend hi hpinned).mpr
      hrestorable).sameButReads
  | cons j next =>
    have hordered := h.nextAccesses i
    have hmem : ∀ k ∈ s.nextAccesses i, k < s.prefixEvents.length := fun k hk =>
      h.lt _ k ((List.dropWhile_suffix _).mem hk)
    rw [hlist] at hordered hmem
    obtain ⟨hbefore, _⟩ := List.pairwise_cons.mp hordered
    have hj := hmem j List.mem_cons_self
    have htouch := unchanged_touch s (addrOf (s.getAddr i))
    have hnext : (s.touch (addrOf (s.getAddr i))).nextAccesses i = j :: next := by
      rw [← hlist]
      exact congrArg (List.dropWhile _) (htouch.writes _)
    unfold treatLock
    simp only [hnext]
    split
    · exact htouch.sameButReads
    · have hfirst : SameButReads
          ((s.touch (addrOf (s.getAddr i))).trySwap env i j) s :=
        (sameButReads_swapAttempt env (s := s.touch (addrOf (s.getAddr i)))
          (i : Int) _ (Nat.ne_of_lt (hbefore j List.mem_cons_self)) hi hj).trans
          htouch.sameButReads
      split
      · exact hfirst
      · split
        · next unlock relock hrelock =>
          have hr := List.mem_cons_of_mem j (mem_of_nextRelock hrelock)
          exact (sameButReads_swapAttempt env (unlock : Int) _
            (Nat.ne_of_lt (hbefore relock hr)) (hfirst.length.symm ▸ hi)
            (hfirst.length.symm ▸ hmem relock hr)).trans hfirst
        · exact hfirst

theorem sameButReads_treat (env : Env Λ) {tables : Tables}
    {s : RFSCTraceBuilder Λ} {i : Nat} (h : LoopInv tables s)
    (hi : i < s.prefixEvents.length) :
    SameButReads (s.treat env tables i) s := by
  unfold treat
  split
  · exact (Unchanged.refl s).sameButReads
  · next hpinned =>
    split
    · exact sameButReads_treatLock env h.collected h.blocked hi
        (Bool.eq_false_iff.mpr hpinned)
    · split
      · exact (treatLoad_spec env h.fit
          ⟨hi, h.collected.listed i hi⟩).1.sameButReads
      · exact (Unchanged.refl s).sameButReads

/-! ## The tables at the start -/

theorem getD_foldl_pushBack (p : Nat → Bool) (f : Nat → SymAddr) (ks : List Nat)
    (m : Map SymAddr (List Nat)) (a : SymAddr) :
    getD (ks.foldl (fun m j => if p j then pushBack m (f j) j else m) m) a [] =
      getD m a [] ++ ks.filter (fun j => p j && f j = a) := by
  induction ks generalizing m with
  | nil => simp
  | cons j ks ih =>
    rw [List.foldl_cons, ih]
    by_cases hp : p j
    · rw [if_pos hp, pushBack, getD_modify]
      by_cases ha : f j = a
      · simp [hp, ha]
      · simp [hp, ha]
    · simp [hp]

theorem mem_modify_pushBack {ms : List (Map SymAddr (List Nat))} {t k : Nat}
    {b a : SymAddr} {q j : Nat}
    (h : j ∈ getD ((ms.modify t fun m => pushBack m b k).getD q []) a []) :
    j ∈ getD (ms.getD q []) a [] ∨ j = k ∧ b = a := by
  rw [List.getD_eq_getElem?_getD] at h ⊢
  by_cases htq : t = q
  · subst htq
    rw [List.getElem?_modify_eq] at h
    cases hm : ms[t]? with
    | none =>
      rw [hm] at h
      exact .inl h
    | some m =>
      rw [hm] at h
      have h' : j ∈ getD (pushBack m b k) a [] := h
      rw [pushBack, getD_modify] at h'
      split at h'
      · next hb =>
        rcases List.mem_append.mp h' with h' | h'
        · exact .inl h'
        · exact .inr ⟨List.mem_singleton.mp h', hb⟩
      · exact .inl h'
  · rw [List.getElem?_modify_ne _ _ htq] at h
    exact .inl h

/-- The tables of the threads list the stores of the trace. -/
theorem mem_foldl_modify_pushBack (p : Nat → Bool) (f : Nat → SymAddr)
    (t : Nat → Nat) (ks : List Nat) (ms : List (Map SymAddr (List Nat)))
    {a : SymAddr} {q j : Nat}
    (h : j ∈ getD ((ks.foldl (fun ms j =>
      if p j then ms.modify (t j) fun m => pushBack m (f j) j else ms) ms).getD q [])
        a []) :
    j ∈ getD (ms.getD q []) a [] ∨ j ∈ ks ∧ p j ∧ f j = a := by
  induction ks generalizing ms with
  | nil => exact .inl h
  | cons k ks ih =>
    rw [List.foldl_cons] at h
    rcases ih _ h with h | ⟨hmem, hp⟩
    · by_cases hpk : p k
      · rw [if_pos hpk] at h
        rcases mem_modify_pushBack h with h | ⟨rfl, ha⟩
        · exact .inl h
        · exact .inr ⟨List.mem_cons_self, hpk, ha⟩
      · rw [if_neg hpk] at h
        exact .inl h
    · exact .inr ⟨List.mem_cons_of_mem k hmem, hp⟩

/-- The state in front of the first round. -/
theorem loopInv_start (env : Env Λ) (s : RFSCTraceBuilder Λ) (h : s.BlockedAtEnd) :
    LoopInv s.collectTables (s.computePrefixesUpTo env 0) := by
  have hwrites : ∀ a, (s.computePrefixesUpTo env 0).writes a =
      (List.range s.prefixEvents.length).filter
        (fun j => (s.ev j).sym.isStore && addrOf (s.getAddr j) = a) := by
    intro a
    exact (getD_foldl_pushBack _ _ _ [] a).trans (List.nil_append _)
  have hcollected : (s.computePrefixesUpTo env 0).Collected := by
    constructor
    · intro a
      rw [hwrites]
      exact List.pairwise_lt_range.filter _
    · intro a j hj
      rw [hwrites] at hj
      exact List.mem_range.mp (List.mem_of_mem_filter hj)
    · intro k hk hstore
      rw [hwrites]
      refine List.mem_filter.mpr ⟨List.mem_range.mpr hk, ?_⟩
      simp only [Bool.and_eq_true, decide_eq_true_eq]
      exact ⟨hstore, rfl⟩
  have hcandidate : ∀ a j, j ∈ List.range s.prefixEvents.length →
      addrOf (s.getAddr j) = a → (s.computePrefixesUpTo env 0).Candidate a j := by
    intro a j hj ha
    subst ha
    exact ⟨List.mem_range.mp hj, hcollected.listed j (List.mem_range.mp hj)⟩
  refine ⟨hcollected, ⟨fun a p j hj => ?_, fun a j hj => ?_⟩, h⟩
  · rcases mem_foldl_modify_pushBack _ _ _ _ _ hj with hj | ⟨hmem, _, ha⟩
    · rw [List.getD_eq_getElem?_getD, List.getElem?_replicate] at hj
      split at hj <;> cases hj
    · exact hcandidate a j hmem ha
  · have hj' := (getD_foldl_pushBack _ _ _ [] a).trans (List.nil_append _) ▸ hj
    obtain ⟨hmem, hp⟩ := List.mem_filter.mp hj'
    simp only [Bool.and_eq_true, decide_eq_true_eq] at hp
    exact hcandidate a j hmem hp.2

theorem computePrefixesUpTo_succ (env : Env Λ) (s : RFSCTraceBuilder Λ) (k : Nat) :
    s.computePrefixesUpTo env (k + 1) =
      (s.computePrefixesUpTo env k).treat env s.collectTables k := by
  unfold computePrefixesUpTo
  rw [List.range_succ, List.foldl_append]
  rfl

/-- In every round the trace is the analysed one, but for its read-froms, and
the tables fit it. -/
theorem computePrefixesUpTo_spec (env : Env Λ) {s : RFSCTraceBuilder Λ}
    (h : s.BlockedAtEnd) {k : Nat} (hk : k ≤ s.prefixEvents.length) :
    SameButReads (s.computePrefixesUpTo env k) (s.computePrefixesUpTo env 0) ∧
      LoopInv s.collectTables (s.computePrefixesUpTo env k) := by
  have hstart := loopInv_start env s h
  induction k with
  | zero => exact ⟨(Unchanged.refl _).sameButReads, hstart⟩
  | succ k ih =>
    obtain ⟨hsame, hinv⟩ := ih (Nat.le_of_succ_le hk)
    have hlt : k < (s.computePrefixesUpTo env k).prefixEvents.length := by
      rw [hsame.length]
      exact hk
    have htreat := sameButReads_treat env hinv hlt
    rw [computePrefixesUpTo_succ]
    exact ⟨htreat.trans hsame, htreat.collected hinv.collected,
      htreat.fit hinv.fit, htreat.blockedAtEnd hinv.blocked⟩

/-- The treatment of the event `i` leaves the analysed trace as it was if and
only if `i` is restorable. -/
theorem unchanged_treatment_iff (env : Env Λ) {s : RFSCTraceBuilder Λ}
    (h : s.BlockedAtEnd) {i : Nat} (hi : i < s.prefixEvents.length) :
    Unchanged (s.computePrefixesUpTo env (i + 1)) (s.computePrefixesUpTo env i) ↔
      (s.computePrefixesUpTo env i).Restorable i := by
  obtain ⟨hsame, hinv⟩ := computePrefixesUpTo_spec env h (Nat.le_of_lt hi)
  rw [computePrefixesUpTo_succ]
  exact unchanged_treat_iff env hinv (hsame.length.symm ▸ hi)

end RFSCTraceBuilder

/-! ## Two threads that initialise one mutex -/

/-- A mutex, or an `int`, of global 0. -/
def globalAddr (size : Nat) : SymAddrSize := ⟨.global 0, 0, size⟩

/-- The main thread spawns two threads, and the accesses of these two to
global 0 follow: `sym1` reads the initial value and `sym2` from `readFrom2`. -/
def twoThreads (sym1 sym2 : SymEv) (readFrom2 : Int) : RFSCTraceBuilder Unit where
  prefixEvents :=
    [{ iid := ⟨0, 1⟩, sym := .spawn 1 }, { iid := ⟨0, 2⟩, sym := .spawn 2 },
      { iid := ⟨1, 1⟩, sym := sym1, readFrom := some (-1)
        event := .first [0] .null
        clock := [(0, 1), (1, 1)], aboveClock := [(0, 1), (1, 1)]
        decisionPtr := some (.child .root 0), decisionDepth := 0 },
      { iid := ⟨2, 1⟩, sym := sym2, readFrom := some readFrom2
        event := .first [1] .null
        clock := [(0, 2), (2, 1)], aboveClock := [(0, 2), (2, 1)]
        decisionPtr := some (.child (.child .root 0) 0), decisionDepth := 1 }]
  prefixIdx := 3
  threads := [⟨[], -1, [0, 1]⟩, ⟨[0], 0, [2]⟩, ⟨[1], 1, [3]⟩]
  mutexDeadlocks := []
  belowClocks := [[], [], [(0, 2), (1, 1), (2, 1)], [(0, 2), (1, 1), (2, 1)]]

/-- A solver that finds a witness for every attempt. -/
def satisfiable : Env Unit := ⟨fun _ _ => ([], some ())⟩

/-- Both threads initialise the mutex.  The second one does not read from the
first one, but is left to read from it. -/
theorem not_unchanged_treatment :
    ¬ ∀ (Λ : Type) (env : Env Λ) (s : RFSCTraceBuilder Λ), s.BlockedAtEnd →
      ∀ i, i < s.prefixEvents.length →
        (s.computePrefixesUpTo env (i + 1)).Unchanged
          (s.computePrefixesUpTo env i) := by
  intro h
  have hsame := h Unit satisfiable
    (twoThreads (.mInit (globalAddr 1)) (.mInit (globalAddr 1)) (-1))
    (fun hblocked => absurd rfl hblocked) 2 (by decide)
  have hread := congrArg Event.readFrom (hsame.ev 3)
  exact absurd hread (by decide)

/-- A compare-exchange succeeds and the other one fails behind it.  They are
swapped and put back. -/
theorem unchanged_treatment_cmpxhg :
    let s := twoThreads (.cmpXhg (globalAddr 1) [1] [0])
      (.cmpXhgFail (globalAddr 1) [2] [0]) 2
    (s.computePrefixesUpTo satisfiable 3).Unchanged
      (s.computePrefixesUpTo satisfiable 2) :=
  (RFSCTraceBuilder.unchanged_treatment_iff satisfiable
    (fun hblocked => absurd rfl hblocked) (by decide)).mpr
    (.inr fun _ => by decide)

end ViEqui.Rfsc
