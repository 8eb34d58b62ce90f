import ViEqui.RfscCausalPast

/-!
# The calls of `try_sat`

`compute_prefixes` calls `try_sat` in the middle of its attempts, when read-from
edges, decisions and outcomes are changed.  Each of these states is visited, and
the decision of the sibling is that of the last event that changed.

* `Called`: where a sibling comes from.
* `Witnessed`: every sibling was made so.  Each attempt keeps it.
* `Witnessed.computePrefixes`: so does the whole loop.
-/

namespace ViEqui.Rfsc

open AssocMap

namespace RFSCTraceBuilder

variable {Λ : Type}

/-- The sibling is made of an answer of `try_sat` in a visited state, and its
decision is that of the last event that changed. -/
def Called (env : Env Λ) (s₀ : RFSCTraceBuilder Λ) (x : DecisionNode × UnfoldingNode × Λ) :
    Prop :=
  ∃ t changed last, Visited s₀ t ∧ changed.getLast? = some last ∧
    (t.ev last).decisionPtr = some x.1 ∧ (env.trySat t changed).2 = some x.2.2

/-- A visited state whose siblings were made in visited states. -/
structure Witnessed (env : Env Λ) (s₀ s : RFSCTraceBuilder Λ) : Prop where
  visited : Visited s₀ s
  siblings : ∀ x ∈ s.siblings, x ∈ s₀.siblings ∨ Called env s₀ x

theorem Witnessed.next {env : Env Λ} {s₀ s t : RFSCTraceBuilder Λ}
    (h : Witnessed env s₀ s) (hvisited : Visited s₀ t) (hsiblings : t.siblings = s.siblings) :
    Witnessed env s₀ t :=
  ⟨hvisited, fun x hx => h.siblings x (hsiblings ▸ hx)⟩

theorem Witnessed.solve {env : Env Λ} {s₀ s : RFSCTraceBuilder Λ}
    (h : Witnessed env s₀ s) (changed : List Nat) {last : Nat} {decision : DecisionNode}
    (unf : UnfoldingNode) (hlast : changed.getLast? = some last)
    (hptr : (s.ev last).decisionPtr = some decision) :
    Witnessed env s₀ (s.solve env changed decision unf) := by
  refine ⟨h.visited.same (unchanged_solve env s changed decision unf).sameTrace, ?_⟩
  have htouch : ∀ (addrs : List SymAddr) (s : RFSCTraceBuilder Λ),
      (addrs.foldl touch s).siblings = s.siblings := by
    intro addrs
    induction addrs with
    | nil => exact fun _ => rfl
    | cons a addrs ih => exact fun s => ih (s.touch a)
  intro x hx
  unfold RFSCTraceBuilder.solve at hx
  dsimp only at hx
  split at hx
  · rw [htouch] at hx
    exact h.siblings x hx
  · next leaf hleaf =>
    rcases List.mem_append.mp hx with hx | hx
    · rw [htouch] at hx
      exact h.siblings x hx
    · rw [List.mem_singleton.mp hx]
      exact Or.inr ⟨s, changed, last, h.visited, hlast, hptr, hleaf⟩

theorem decisionPtr_modifyEvent (s : RFSCTraceBuilder Λ) (k : Nat) {f : Event → Event}
    (hf : ∀ e, (f e).decisionPtr = e.decisionPtr) (i : Nat) :
    ((s.modifyEvent k f).ev i).decisionPtr = (s.ev i).decisionPtr := by
  by_cases hi : i < s.prefixEvents.length
  · rw [ev_modifyEvent s k f hi]
    split
    · exact hf _
    · rfl
  · unfold ev
    rw [List.getD_eq_getElem?_getD, List.getD_eq_getElem?_getD,
      List.getElem?_eq_none (by rw [length_modifyEvent]; omega),
      List.getElem?_eq_none (by omega)]

@[simp] theorem length_setReadFrom (s : RFSCTraceBuilder Λ) (k : Nat) (w : Int) :
    (s.setReadFrom k w).prefixEvents.length = s.prefixEvents.length :=
  length_modifyEvent s k _

@[simp] theorem decisionPtr_setReadFrom (s : RFSCTraceBuilder Λ) (k i : Nat) (w : Int) :
    ((s.setReadFrom k w).ev i).decisionPtr = (s.ev i).decisionPtr := by
  refine decisionPtr_modifyEvent s k ?_ i
  exact fun _ => rfl

@[simp] theorem length_setPinned (s : RFSCTraceBuilder Λ) (k : Nat) (pinned : Bool) :
    (s.setPinned k pinned).prefixEvents.length = s.prefixEvents.length :=
  length_modifyEvent s k _

@[simp] theorem decisionPtr_setPinned (s : RFSCTraceBuilder Λ) (k i : Nat) (pinned : Bool) :
    ((s.setPinned k pinned).ev i).decisionPtr = (s.ev i).decisionPtr := by
  refine decisionPtr_modifyEvent s k ?_ i
  exact fun _ => rfl

/-- The second event has the decision of the first one behind a swap. -/
theorem decisionPtr_decisionSwap (s : RFSCTraceBuilder Λ) {i j : Nat} (hij : i ≠ j)
    (hj : j < s.prefixEvents.length) :
    ((s.decisionSwap i j).ev j).decisionPtr = (s.ev i).decisionPtr := by
  rw [ev_decisionSwap s hij hj, if_neg (Ne.symm hij), if_pos rfl]

theorem length_solve (env : Env Λ) (s : RFSCTraceBuilder Λ) (changed : List Nat)
    (decision : DecisionNode) (unf : UnfoldingNode) :
    (s.solve env changed decision unf).prefixEvents.length = s.prefixEvents.length :=
  congrArg List.length (unchanged_solve env s changed decision unf).prefixEvents

theorem Referring.readFromOf {s : RFSCTraceBuilder Λ} (h : s.Referring) (i : Nat)
    (hne : s.readFromOf i ≠ -1) : (s.readFromOf i).toNat < s.prefixEvents.length := by
  unfold RFSCTraceBuilder.readFromOf at hne ⊢
  by_cases hi : i < s.prefixEvents.length
  · cases hw : (s.ev i).readFrom with
    | none =>
      rw [hw] at hne
      exact absurd rfl hne
    | some w =>
      rw [hw] at hne
      exact h.reads _ (s.ev_mem hi) w hw hne
  · have hev : s.ev i = default := by
      unfold ev
      rw [List.getD_eq_getElem?_getD, List.getElem?_eq_none (by omega)]
      rfl
    rw [hev] at hne
    exact absurd rfl hne

section Attempts

variable {env : Env Λ} {s₀ s : RFSCTraceBuilder Λ} {i j : Nat}

theorem Witnessed.allocUnf (h : Witnessed env s₀ s) (decision : DecisionNode)
    (unf : UnfoldingNode) : Witnessed env s₀ (s.allocUnf decision unf) :=
  h.next (h.visited.same (unchanged_allocUnf s decision unf).sameTrace) rfl

theorem Witnessed.setReadFrom (h : Witnessed env s₀ s) (i : Nat) {w : Int}
    (hw : w ≠ -1 → w.toNat < s.prefixEvents.length) : Witnessed env s₀ (s.setReadFrom i w) :=
  h.next (h.visited.readFrom i w hw) rfl

theorem Witnessed.setPinned (h : Witnessed env s₀ s) (i : Nat) (pinned : Bool) :
    Witnessed env s₀ (s.setPinned i pinned) :=
  h.next (h.visited.pin i pinned) rfl

theorem Witnessed.recompute (h : Witnessed env s₀ s) (idx : Nat) (a : SymAddr) :
    Witnessed env s₀ (s.recomputeCmpxhgSuccess idx a).1 :=
  h.next (h.visited.recompute idx a) rfl

theorem Witnessed.undo (h : Witnessed env s₀ s) (log : CmpXhgUndoLog) (idx : Nat)
    (a : SymAddr) : Witnessed env s₀ (s.undoCmpxhgRecomputation log idx a) :=
  h.next (h.visited.undo log idx a) rfl

theorem Witnessed.pushBlocked (h : Witnessed env s₀ s) (jp jidx : Nat) (addr : SymAddrSize)
    (alt : UnfoldingNode) (hend : s.prefixIdx + 1 = s.prefixEvents.length) :
    Witnessed env s₀ (s.pushBlocked jp jidx addr alt) :=
  h.next (h.visited.blocked jp jidx addr alt hend) rfl

theorem Witnessed.decisionSwap (h : Witnessed env s₀ s) (hij : i ≠ j)
    (hi : i < s.prefixEvents.length) (hj : j < s.prefixEvents.length) :
    Witnessed env s₀ (s.decisionSwap i j) :=
  h.next (h.visited.swap i j hij hi hj) rfl

/-- The part of a swap between the change of the read-from and its reset. -/
theorem Witnessed.swapAttempt (h : Witnessed env s₀ s) (href : s.Referring) {back : Int}
    (allowed : Bool) (hij : i ≠ j) (hi : i < s.prefixEvents.length)
    (hj : j < s.prefixEvents.length) (hback : back ≠ -1 → back.toNat < s.prefixEvents.length)
    (hptr : (s.ev i).decisionPtr = some (s.decisionOf i)) :
    Witnessed env s₀ (s.swapAttempt env i j back allowed) := by
  unfold RFSCTraceBuilder.swapAttempt
  dsimp only
  split
  · exact h
  · have halloc := h.allocUnf (s.decisionOf i)
      (s.unfoldAlternative j (s.ev i).event.readFrom)
    split
    · exact halloc
    · have hread := halloc.setReadFrom j (href.readFromOf i)
      have hi' : i < ((s.allocUnf (s.decisionOf i) (s.unfoldAlternative j
          (s.ev i).event.readFrom)).setReadFrom j (s.readFromOf i)).prefixEvents.length := by
        rw [length_setReadFrom]
        exact hi
      have hj' : j < ((s.allocUnf (s.decisionOf i) (s.unfoldAlternative j
          (s.ev i).event.readFrom)).setReadFrom j (s.readFromOf i)).prefixEvents.length := by
        rw [length_setReadFrom]
        exact hj
      have hswap := hread.decisionSwap hij hi' hj'
      have hsolve := hswap.solve [j] (s.unfoldAlternative j (s.ev i).event.readFrom) rfl
        ((decisionPtr_decisionSwap _ hij hj').trans
          ((decisionPtr_setReadFrom _ j i _).trans hptr))
      have hreset := hsolve.setReadFrom j (w := back) (by
        rw [length_solve, length_decisionSwap, length_setReadFrom]
        exact hback)
      refine hreset.decisionSwap hij ?_ ?_
      · rw [length_setReadFrom, length_solve, length_decisionSwap]
        exact hi'
      · rw [length_setReadFrom, length_solve, length_decisionSwap]
        exact hj'

theorem Witnessed.replaceBlocked (h : Witnessed env s₀ s) {o : Int} (decision : DecisionNode)
    (alt : UnfoldingNode) (hij : i ≠ j) (hi : i < s.prefixEvents.length)
    (hj : j < s.prefixEvents.length) (ho : o ≠ -1 → o.toNat < s.prefixEvents.length)
    (hptr : (s.ev i).decisionPtr = some decision) :
    Witnessed env s₀ (s.replaceBlocked env i j o decision alt) := by
  unfold RFSCTraceBuilder.replaceBlocked
  split
  · have hread := h.setReadFrom j ho
    have hi' : i < (s.setReadFrom j o).prefixEvents.length := by
      rw [length_setReadFrom]
      exact hi
    have hj' : j < (s.setReadFrom j o).prefixEvents.length := by
      rw [length_setReadFrom]
      exact hj
    have hpin := (hread.decisionSwap hij hi' hj').setPinned i true
    have hlen : (((s.setReadFrom j o).decisionSwap i j).setPinned i true).prefixEvents.length =
        (s.setReadFrom j o).prefixEvents.length := by
      rw [length_setPinned, length_decisionSwap]
    have hsolve := hpin.solve [j] alt rfl ((decisionPtr_setPinned _ i j true).trans
      ((decisionPtr_decisionSwap _ hij hj').trans
        ((decisionPtr_setReadFrom s j i o).trans hptr)))
    dsimp only
    refine (hsolve.decisionSwap hij ?_ ?_).setPinned i false
    · rw [length_solve, hlen]
      exact hi'
    · rw [length_solve, hlen]
      exact hj'
  · exact h

/-- The swap with a blocked thread, whose event is removed again. -/
theorem Witnessed.trySwapBlocked (h : Witnessed env s₀ s) (href : s.Referring)
    (hblockable : s.Blockable i) (addr : SymAddrSize) (jp : Nat)
    (hptr : (s.ev i).decisionPtr = some (s.decisionOf i)) :
    Witnessed env s₀ (s.trySwapBlocked env i addr jp) := by
  have hvisited := h.visited.same (unchanged_trySwapBlocked env addr jp hblockable).sameTrace
  have hend := hblockable.atEnd
  have hi := hblockable.lt
  unfold RFSCTraceBuilder.trySwapBlocked at hvisited ⊢
  dsimp only at hvisited ⊢
  split
  · exact h
  · next hnew =>
    rw [if_neg hnew] at hvisited
    generalize s.unfoldFindUnfoldingNode jp _ _ = alt at hvisited ⊢
    generalize (s.threads.getD jp default).eventIndices.length + 1 = jidx at hvisited ⊢
    have hpush := (h.allocUnf (s.decisionOf i) alt).pushBlocked jp jidx addr alt hend
    have hptr' := congrArg Event.decisionPtr
      (ev_pushBlocked (s.allocUnf (s.decisionOf i) alt) jp jidx addr alt hend hi)
    have hlen : ((s.allocUnf (s.decisionOf i) alt).pushBlocked jp jidx addr
        alt).prefixEvents.length = s.prefixEvents.length + 1 := length_pushBlocked _ _ _ _ _
    have hj : ((s.allocUnf (s.decisionOf i) alt).prefixIdx + 1).toNat =
        s.prefixEvents.length := by
      show (s.prefixIdx + 1).toNat = _
      rw [hend, Int.toNat_natCast]
    rw [hj] at hvisited ⊢
    have hreplace := hpush.replaceBlocked (s.decisionOf i) alt (Nat.ne_of_lt hi)
      (by omega) (by omega) (fun hne => by
        have hlt := href.readFromOf i hne
        omega) (hptr'.trans hptr)
    exact hreplace.next hvisited rfl

/-! ## Loads -/

theorem decisionPtr_recompute (s : RFSCTraceBuilder Λ) (idx : Nat) (a : SymAddr) (k : Nat) :
    ((s.recomputeCmpxhgSuccess idx a).1.ev k).decisionPtr = (s.ev k).decisionPtr := by
  refine decisionPtr_modifyEvent s idx ?_ k
  exact fun _ => rfl

theorem Witnessed.tryReadFromRmw (h : Witnessed env s₀ s) {o : Int} (a : SymAddr)
    (decision : DecisionNode) (hi : i < s.prefixEvents.length)
    (hj : j < s.prefixEvents.length) (ho : o ≠ -1 → o.toNat < s.prefixEvents.length)
    (hptr : (s.ev i).decisionPtr = some decision) :
    Witnessed env s₀ (s.tryReadFromRmw env i a o decision j) := by
  unfold RFSCTraceBuilder.tryReadFromRmw
  split
  · exact h
  · dsimp only
    split
    · exact h
    · have halloc := h.allocUnf decision (s.unfoldAlternative j (s.ev i).event.readFrom)
      split
      · exact halloc
      · have hread := (halloc.setReadFrom j ho).setReadFrom i (w := j)
          (fun _ => by rwa [length_setReadFrom, Int.toNat_natCast])
        have hrecompute := (hread.recompute j a).recompute i a
        have hptr' := (decisionPtr_recompute _ i a i).trans
          ((decisionPtr_recompute _ j a i).trans ((decisionPtr_setReadFrom _ i i j).trans
            ((decisionPtr_setReadFrom _ j i o).trans hptr)))
        have hsolve := hrecompute.solve [j, i]
          (s.unfoldAlternative j (s.ev i).event.readFrom) rfl hptr'
        have hreset := hsolve.setReadFrom j (w := i) (fun _ => by
          rw [length_solve, length_recompute, length_recompute, length_setReadFrom,
            length_setReadFrom, Int.toNat_natCast]
          exact hi)
        exact (hreset.undo _ i a).undo _ j a

theorem Witnessed.tryReadFrom (h : Witnessed env s₀ s) {o w : Int} (a : SymAddr)
    (decision : DecisionNode) (hi : i < s.prefixEvents.length)
    (ho : o ≠ -1 → o.toNat < s.prefixEvents.length)
    (hw : w ≠ -1 → w.toNat < s.prefixEvents.length)
    (hptr : (s.ev i).decisionPtr = some decision) :
    Witnessed env s₀ (s.tryReadFrom env i a o decision w) := by
  unfold RFSCTraceBuilder.tryReadFrom
  split
  · exact h
  · split
    · next hrmw =>
      split
      · exact h.tryReadFromRmw a decision hi (hw hrmw.1) ho hptr
      · exact h
    · dsimp only
      split
      · exact h
      · have halloc := h.allocUnf decision (s.eventOf w)
        split
        · exact halloc
        · have hrecompute := (halloc.setReadFrom i hw).recompute i a
          have hptr' := (decisionPtr_recompute _ i a i).trans
            ((decisionPtr_setReadFrom _ i i w).trans hptr)
          exact (hrecompute.solve [i] (s.eventOf w) rfl hptr').undo _ i a

end Attempts

/-- What the attempts with the load `i`, which reads from `o`, keep. -/
structure Attempting (env : Env Λ) (s₀ : RFSCTraceBuilder Λ) (i : Nat) (a : SymAddr) (o : Int)
    (decision : DecisionNode) (s : RFSCTraceBuilder Λ) : Prop where
  witnessed : Witnessed env s₀ s
  candidate : s.Candidate a i
  source : o ≠ -1 → o.toNat < s.prefixEvents.length
  ptr : (s.ev i).decisionPtr = some decision

section Loads

variable {env : Env Λ} {s₀ s t : RFSCTraceBuilder Λ} {i : Nat} {a : SymAddr} {o : Int}
  {decision : DecisionNode}

theorem Attempting.next (h : Attempting env s₀ i a o decision s) (honly : OnlyReadFrom i t s)
    (hwitnessed : Witnessed env s₀ t) : Attempting env s₀ i a o decision t where
  witnessed := hwitnessed
  candidate := h.candidate.of_onlyReadFrom honly
  source := honly.length.symm ▸ h.source
  ptr := by
    obtain ⟨w, hw⟩ := honly.self h.candidate.lt
    rw [hw]
    exact h.ptr

theorem Attempting.tryReadFrom (h : Attempting env s₀ i a o decision s) {w : Int}
    (hw : w ≠ -1 → s.Candidate a w.toNat) :
    Attempting env s₀ i a o decision (s.tryReadFrom env i a o decision w) :=
  h.next (onlyReadFrom_tryReadFrom env o decision w h.candidate hw)
    (h.witnessed.tryReadFrom a decision h.candidate.lt h.source (fun hne => (hw hne).lt) h.ptr)

/-- A loop of attempts for `i`. -/
theorem Attempting.foldl {β : Type} {f : RFSCTraceBuilder Λ → β → RFSCTraceBuilder Λ}
    {P : RFSCTraceBuilder Λ → β → Prop}
    (hkeep : ∀ s s' x, OnlyReadFrom i s' s → P s x → P s' x)
    (hstep : ∀ s x, Attempting env s₀ i a o decision s → P s x →
      OnlyReadFrom i (f s x) s ∧ Witnessed env s₀ (f s x))
    (xs : List β) (h : Attempting env s₀ i a o decision s) (hs : ∀ x ∈ xs, P s x) :
    Attempting env s₀ i a o decision (xs.foldl f s) := by
  induction xs generalizing s with
  | nil => exact h
  | cons x xs ih =>
    obtain ⟨honly, hwitnessed⟩ := hstep s x h (hs x List.mem_cons_self)
    exact ih (h.next honly hwitnessed)
      fun y hy => hkeep s (f s x) y honly (hs y (List.mem_cons_of_mem x hy))

theorem Attempting.tryWrites (h : Attempting env s₀ i a o decision s) {tables : Tables}
    (hfit : tables.Fit s) :
    Attempting env s₀ i a o decision (s.tryWrites env tables i a o decision) := by
  have hwrites : ∀ s p, Attempting env s₀ i a o decision s → tables.Fit s →
      Attempting env s₀ i a o decision ((s.visibleWrites tables i a p).foldl
        (fun s (w : Nat) => s.tryReadFrom env i a o decision w) s) := by
    intro s p h hfit
    refine Attempting.foldl (P := fun s w => s.Candidate a w)
      (fun s s' w honly hw => hw.of_onlyReadFrom honly) (fun s w h hw => ?_) _ h
      fun w hw => hfit.writes a p w (mem_visibleWrites hw)
    exact ⟨onlyReadFrom_tryReadFrom env o decision w h.candidate fun _ => hw,
      (h.tryReadFrom (w := w) fun _ => hw).witnessed⟩
  refine Attempting.foldl (P := fun s _ => tables.Fit s)
    (fun s s' _ honly hfit => hfit.of_onlyReadFrom honly) (fun s p h hfit => ?_) _ h
    fun _ _ => hfit
  refine ⟨?_, (hwrites s p h hfit).witnessed⟩
  refine onlyReadFrom_foldl _ (P := fun s w => s.Candidate a w)
    (fun s s' w honly hw => hw.of_onlyReadFrom honly) (fun s w _ hi hw => ?_) s h.candidate
    fun w hw => hfit.writes a p w (mem_visibleWrites hw)
  exact onlyReadFrom_tryReadFrom env o decision w hi fun _ => hw

theorem Attempting.tryCmpxhgfails (h : Attempting env s₀ i a o decision s) (js : List Nat)
    (hjs : ∀ j ∈ js, s.Candidate a j) :
    Attempting env s₀ i a o decision (s.tryCmpxhgfails env i a o decision js) := by
  refine Attempting.foldl (P := fun s j => s.Candidate a j)
    (fun s s' j honly hj => hj.of_onlyReadFrom honly) (fun s j h hj => ?_) _ h hjs
  split
  · next hlt =>
    exact ⟨onlyReadFrom_tryReadFromRmw env o decision (Nat.ne_of_lt hlt.1) h.candidate hj,
      h.witnessed.tryReadFromRmw a decision h.candidate.lt hj.lt h.source h.ptr⟩
  · exact ⟨(Unchanged.refl s).onlyReadFrom i, h.witnessed⟩

theorem Witnessed.treatLoad (h : Witnessed env s₀ s) (href : s.Referring) {tables : Tables}
    (hfit : tables.Fit s) (hi : s.Candidate (addrOf (s.getAddr i)) i)
    (hptr : (s.ev i).decisionPtr = some (s.decisionOf i)) :
    Witnessed env s₀ (s.treatLoad env tables i) := by
  unfold RFSCTraceBuilder.treatLoad
  dsimp only
  have htouch := (unchanged_touch s (addrOf (s.getAddr i))).onlyReadFrom i
  have hstart : Attempting env s₀ i (addrOf (s.getAddr i)) (s.readFromOf i) (s.decisionOf i)
      (s.touch (addrOf (s.getAddr i))) := by
    refine ⟨h.next (h.visited.same (unchanged_touch s _).sameTrace) rfl,
      hi.of_onlyReadFrom htouch, href.readFromOf i, hptr⟩
  have hwrites := hstart.tryWrites (hfit.of_onlyReadFrom htouch)
  have honly := (onlyReadFrom_tryWrites env (s.readFromOf i) (s.decisionOf i)
    (hfit.of_onlyReadFrom htouch) hstart.candidate).trans htouch
  rw [show (s.touch (addrOf (s.getAddr i))).readFromOf i = s.readFromOf i from rfl,
    show (s.touch (addrOf (s.getAddr i))).decisionOf i = s.decisionOf i from rfl]
  generalize (s.touch (addrOf (s.getAddr i))).tryWrites env tables i (addrOf (s.getAddr i))
    (s.readFromOf i) (s.decisionOf i) = s1 at hwrites honly ⊢
  have hinit := hwrites.tryReadFrom (w := -1) (fun hne => absurd rfl hne)
  have honly' := (onlyReadFrom_tryReadFrom env (s.readFromOf i) (s.decisionOf i) (-1)
    hwrites.candidate (fun hne => absurd rfl hne)).trans honly
  generalize s1.tryReadFrom env i (addrOf (s.getAddr i)) (s.readFromOf i) (s.decisionOf i)
    (-1) = s2 at hinit honly' ⊢
  have hfails : Attempting env s₀ i (addrOf (s.getAddr i)) (s.readFromOf i) (s.decisionOf i)
      (if (s2.ev i).sym.isStore then
        s2.tryCmpxhgfails env i (addrOf (s.getAddr i)) (s.readFromOf i) (s.decisionOf i)
          (getD tables.cmpxhgfailByAddress (addrOf (s.getAddr i)) []) else s2) := by
    split
    · exact hinit.tryCmpxhgfails _ fun j hj => (hfit.cmpxhgfails _ j hj).of_onlyReadFrom honly'
    · exact hinit
  exact hfails.witnessed.setReadFrom i hfails.source

end Loads

/-! ## Mutexes -/

theorem isLoad_of_isLockType {e : SymEv} (h : e.isLockType) : e.isLoad := by
  cases e with
  | mInit _ | mLock _ | mTryLock _ | mTryLockFail _ | mUnlock _ | mDelete _ => rfl
  | _ => cases h

/-- The unlock that is found is one of the accesses. -/
theorem mem_of_nextRelock_unlock {s : RFSCTraceBuilder Λ} {next : List Nat}
    {unlock relock : Nat} (h : s.nextRelock next = some (unlock, relock)) : unlock ∈ next := by
  unfold nextRelock at h
  split at h
  · next u r rest hdrop =>
    split at h
    · cases h
      have hsuffix : (unlock :: relock :: rest) <:+ next := hdrop ▸ List.dropWhile_suffix _
      exact hsuffix.mem List.mem_cons_self
    · cases h
  · cases h

/-- The event has a decision. -/
def Decided (s : RFSCTraceBuilder Λ) (i : Nat) : Prop :=
  (s.ev i).decisionPtr = some (s.decisionOf i)

theorem Decided.congr {s t : RFSCTraceBuilder Λ} {i : Nat} (h : s.Decided i)
    (hptr : (t.ev i).decisionPtr = (s.ev i).decisionPtr) : t.Decided i := by
  unfold Decided decisionOf at h ⊢
  rwa [hptr]

section Treatment

variable {env : Env Λ} {s₀ s : RFSCTraceBuilder Λ} {i : Nat} {m : Int}

theorem Witnessed.referring (h : Witnessed env s₀ s) (h₀ : s₀.Placed m) (hm : -1 ≤ m) :
    s.Referring :=
  (h.visited.placed h₀ hm).referring

theorem Witnessed.blockedLoop (h : Witnessed env s₀ s) (h₀ : s₀.Placed m) (hm : -1 ≤ m)
    (hblockable : s.Blockable i) (addr : SymAddrSize) (jps : List Nat) (hptr : s.Decided i) :
    Witnessed env s₀ (jps.foldl (RFSCTraceBuilder.trySwapBlocked env i addr) s) := by
  induction jps generalizing s with
  | nil => exact h
  | cons jp jps ih =>
    have hstep := unchanged_trySwapBlocked env addr jp hblockable
    refine ih (h.trySwapBlocked (h.referring h₀ hm) hblockable addr jp hptr) ⟨?_, ?_, ?_⟩ ?_
    · rw [hstep.prefixEvents]
      exact hblockable.lt
    · rw [hstep.prefixEvents, hstep.prefixIdx]
      exact hblockable.atEnd
    · rw [hstep.ev]
      exact hblockable.unpinned
    · exact hptr.congr (congrArg Event.decisionPtr (hstep.ev i))

theorem Witnessed.treatLock (h : Witnessed env s₀ s) (h₀ : s₀.Placed m) (hm : -1 ≤ m)
    (hcollected : s.Collected) (hend : s.BlockedAtEnd) (hi : i < s.prefixEvents.length)
    (hpinned : (s.ev i).pinned = false) (hptr : s.Decided i) :
    Witnessed env s₀ (s.treatLock env i) := by
  have hordered := hcollected.nextAccesses i
  have hmem : ∀ k ∈ s.nextAccesses i, k < s.prefixEvents.length := fun k hk =>
    hcollected.lt _ k ((List.dropWhile_suffix _).mem hk)
  have htouch := unchanged_touch s (addrOf (s.getAddr i))
  have hnext : (s.touch (addrOf (s.getAddr i))).nextAccesses i = s.nextAccesses i :=
    congrArg (List.dropWhile _) (htouch.writes _)
  have hstart : Witnessed env s₀ (s.touch (addrOf (s.getAddr i))) :=
    h.next (h.visited.same htouch.sameTrace) rfl
  unfold RFSCTraceBuilder.treatLock
  dsimp only
  rw [hnext]
  cases hlist : s.nextAccesses i with
  | nil =>
    dsimp only
    split
    · by_cases hblocked : s.mutexDeadlocks = []
      · rw [show (s.touch (addrOf (s.getAddr i))).mutexDeadlocks = [] from hblocked]
        exact hstart
      · exact hstart.blockedLoop h₀ hm ⟨hi, hend hblocked, hpinned⟩ _ _ hptr
    · exact hstart
  | cons j next =>
    rw [hlist] at hordered hmem
    obtain ⟨hbefore, _⟩ := List.pairwise_cons.mp hordered
    have hij : i ≠ j := Nat.ne_of_lt (hbefore j List.mem_cons_self)
    have hj := hmem j List.mem_cons_self
    dsimp only
    split
    · exact hstart
    · have hswap : Witnessed env s₀ ((s.touch (addrOf (s.getAddr i))).trySwap env i j) :=
        hstart.swapAttempt (hstart.referring h₀ hm) _ hij hi hj
          (fun _ => by rwa [Int.toNat_natCast]) hptr
      have honly := (swapAttempt_spec env (s := s.touch (addrOf (s.getAddr i))) (i : Int)
        ((s.touch (addrOf (s.getAddr i))).canSwapByVclocks i j) hij hi hj).1
      split
      · exact hswap
      · split
        · next unlock relock hrelock =>
          have hr := mem_of_nextRelock hrelock
          have hunlock : unlock ∈ j :: next := mem_of_nextRelock_unlock hrelock
          have hlen : ∀ k ∈ j :: next, k < ((s.touch (addrOf (s.getAddr i))).trySwap env i
              j).prefixEvents.length := fun k hk => honly.length.symm ▸ hmem k hk
          refine hswap.swapAttempt (hswap.referring h₀ hm) _
            (Nat.ne_of_lt (hbefore relock (List.mem_cons_of_mem j hr)))
            (honly.length.symm ▸ hi) (hlen relock (List.mem_cons_of_mem j hr))
            (fun _ => ?_) (hptr.congr (congrArg Event.decisionPtr (honly.others i hi hij)))
          rw [Int.toNat_natCast]
          exact hlen unlock hunlock
        · exact hswap

theorem Witnessed.treat (h : Witnessed env s₀ s) (h₀ : s₀.Placed m) (hm : -1 ≤ m)
    {tables : Tables} (hinv : LoopInv tables s) (hi : i < s.prefixEvents.length)
    (hptr : (s.ev i).pinned = false → (s.ev i).sym.isLoad → s.Decided i) :
    Witnessed env s₀ (s.treat env tables i) := by
  unfold RFSCTraceBuilder.treat
  split
  · exact h
  · next hpinned =>
    have hfalse := Bool.eq_false_iff.mpr hpinned
    split
    · next hlock =>
      exact h.treatLock h₀ hm hinv.collected hinv.blocked hi hfalse
        (hptr hfalse (isLoad_of_isLockType hlock))
    · split
      · next hload =>
        exact h.treatLoad (h.referring h₀ hm) hinv.fit ⟨hi, hinv.collected.listed i hi⟩
          (hptr hfalse hload)
      · exact h

end Treatment

/-- The siblings of all rounds were made in visited states. -/
theorem Witnessed.computePrefixesUpTo (env : Env Λ) {s : RFSCTraceBuilder Λ} {m : Int}
    (h : s.Placed m) (hm : -1 ≤ m) (hend : s.BlockedAtEnd) (hasserted : s.Asserted) {k : Nat}
    (hk : k ≤ s.prefixEvents.length) : Witnessed env s (s.computePrefixesUpTo env k) := by
  induction k with
  | zero => exact ⟨Visited.start.same ⟨rfl, rfl, rfl⟩, fun x hx => Or.inl hx⟩
  | succ k ih =>
    obtain ⟨hsame, hinv⟩ := computePrefixesUpTo_spec env hend (Nat.le_of_succ_le hk)
    have hlt : k < (s.computePrefixesUpTo env k).prefixEvents.length := by
      rw [hsame.length]
      exact hk
    obtain ⟨w, hw⟩ := hsame.events k hk
    have hev : (s.computePrefixesUpTo env k).ev k = { s.ev k with readFrom := w } := hw
    rw [computePrefixesUpTo_succ]
    refine (ih (Nat.le_of_succ_le hk)).treat h hm hinv hlt fun hpinned hload => ?_
    rw [hev] at hpinned hload
    have hpinned' : (s.ev k).pinned = false := hpinned
    have hdepth : (s.ev k).decisionDepth ≠ -1 := by
      refine ((hasserted _ (s.ev_mem hk)).loads.mp hload).resolve_right fun hpin => ?_
      rw [hpinned'] at hpin
      cases hpin
    have hpointed := h.pointed _ (s.ev_mem hk)
    unfold Event.Pointed at hpointed
    unfold Decided decisionOf
    rw [hev]
    show (s.ev k).decisionPtr = some ((s.ev k).decisionPtr.getD .root)
    cases hptr : (s.ev k).decisionPtr with
    | none =>
      rw [hptr] at hpointed
      exact absurd hpointed hdepth
    | some d => rfl

end RFSCTraceBuilder

end ViEqui.Rfsc
