import ViEqui.RfscSiblings

/-!
# The leaves of an exploration

Decision depths are handed from one execution to the next ones: `reset` takes
them from a leaf, `compute_unfolding` gives new ones to new loads, the attempts
of `compute_prefixes` move them, and `order_to_leaf` writes them to the leaf of
a sibling.

* `computeUnfolding`: `unfoldEvent_cases` says what a round does, and
  `Unfolding` is the invariant of the loop.
* `Explored`: the leaves of all work items.
* `Consistent`: each depth up to that of the item occurs once in its leaf, and
  the other loads are pinned.  `Explored.consistent` carries it through the
  exploration.
* `leaf_of_causalPast`: what a leaf of an order of a causal past looks like.
-/

namespace ViEqui.Rfsc

open AssocMap Marking

namespace RFSCTraceBuilder

variable {Λ : Type}

/-! ## `compute_unfolding` -/

def setEvent (s : RFSCTraceBuilder Λ) (i : Nat) (unf : UnfoldingNode) : RFSCTraceBuilder Λ :=
  s.modifyEvent i fun e => { e with event := unf }

/-- `set_decision`. -/
def setDecision (s : RFSCTraceBuilder Λ) (i : Nat) (decision : DecisionNode) :
    RFSCTraceBuilder Λ :=
  s.modifyEvent i fun e =>
    { e with decisionPtr := some decision, decisionDepth := decision.depth }

/-- The unfolding event of the program order predecessor. -/
def parentEvent (s : RFSCTraceBuilder Λ) (i : Nat) : UnfoldingNode :=
  let iid := (s.ev i).iid
  if iid.idx = 1 then .null else (s.ev (s.findProcessEvent iid.pid (iid.idx - 1))).event

/-- The body of the loop of `compute_unfolding`, on the trace and
`deepest_node`.  `ids i` stands for the address of the decision that `i` gets.
An event without `may_conflict` is one without a symbolic event. -/
def unfoldEvent (replayPoint : Nat) (ids : Nat → Nat)
    (st : RFSCTraceBuilder Λ × DecisionNode) (i : Nat) : RFSCTraceBuilder Λ × DecisionNode :=
  let (s, deepest) := st
  let deepest :=
    match (s.ev i).decisionPtr with
    | some last => if deepest.depth < last.depth then last else deepest
    | none => deepest
  let parent := s.parentEvent i
  if (s.ev i).sym = .none ∧ parent ≠ .null then (s.setEvent i parent, deepest)
  else
    let cpid := (s.threads.getD (s.ev i).iid.pid default).cpid
    let unf := .find cpid parent (s.eventOf (s.readFromOf i))
    if replayPoint ≤ i ∧ (s.ev i).sym.isLoad then
      let decision := .child deepest (ids i)
      let source := if (s.ev i).sym.isLockType then unf else unf.readFrom
      (((s.setEvent i unf).allocUnf decision source).setDecision i decision, decision)
    else (s.setEvent i unf, deepest)

/-- `compute_unfolding`.  The second component is `work_item` behind it. -/
def computeUnfolding (s : RFSCTraceBuilder Λ) (item : DecisionNode) (replayPoint : Nat)
    (ids : Nat → Nat) : RFSCTraceBuilder Λ × DecisionNode :=
  (List.range s.prefixEvents.length).foldl (unfoldEvent replayPoint ids) (s, item)

/-- A round gives the event its unfolding event, and a new load a decision
below the deepest one. -/
theorem unfoldEvent_cases (replayPoint : Nat) (ids : Nat → Nat) {s : RFSCTraceBuilder Λ}
    {deepest : DecisionNode} {i : Nat}
    (hdeepest : ∀ d, (s.ev i).decisionPtr = some d → d.depth ≤ deepest.depth) :
    (¬ (replayPoint ≤ i ∧ (s.ev i).sym.isLoad) ∧
      ∃ unf, unfoldEvent replayPoint ids (s, deepest) i = (s.setEvent i unf, deepest)) ∨
    (replayPoint ≤ i ∧ (s.ev i).sym.isLoad) ∧
      ∃ unf source, unfoldEvent replayPoint ids (s, deepest) i =
        (((s.setEvent i unf).allocUnf (.child deepest (ids i)) source).setDecision i
          (.child deepest (ids i)), .child deepest (ids i)) := by
  have hsame : (match (s.ev i).decisionPtr with
      | some last => if deepest.depth < last.depth then last else deepest
      | none => deepest) = deepest := by
    cases hptr : (s.ev i).decisionPtr with
    | none => rfl
    | some d => exact if_neg (Int.not_lt.mpr (hdeepest d hptr))
  unfold unfoldEvent
  dsimp only
  rw [hsame]
  split
  · next hnone =>
    refine Or.inl ⟨fun hload => ?_, _, rfl⟩
    rw [hnone.1] at hload
    cases hload.2
  · split
    · next hload => exact Or.inr ⟨hload, _, _, rfl⟩
    · next hload => exact Or.inl ⟨hload, _, rfl⟩

theorem Placed.setEvent {m : Int} {s : RFSCTraceBuilder Λ} (h : s.Placed m) (i : Nat)
    (unf : UnfoldingNode) : (s.setEvent i unf).Placed m :=
  h.modifyEvent i (fun _ => rfl) (fun _ => rfl) (fun _ => rfl) fun _ _ hw => Or.inl hw

/-- An event without a decision gets the next one. -/
theorem Placed.setDecision {m : Int} {s : RFSCTraceBuilder Λ} (h : s.Placed m) {i : Nat}
    (hi : i < s.prefixEvents.length) (hnone : (s.ev i).decisionDepth = -1)
    {decision : DecisionNode} (hdepth : decision.depth = m + 1) (hm : -1 ≤ m) :
    (s.setDecision i decision).Placed (m + 1) := by
  have hdepths : (s.setDecision i decision).depths = s.depths.set i (m + 1) := by
    unfold depths RFSCTraceBuilder.setDecision RFSCTraceBuilder.modifyEvent
    refine List.ext_getElem? fun k => ?_
    rw [List.getElem?_map, List.getElem?_modify, List.getElem?_set, List.getElem?_map,
      List.length_map]
    by_cases hk : i = k
    · subst hk
      simp [hi, hdepth]
    · simp [hk]
  have hget : s.depths[i]? = some (-1) := by
    rw [← hnone]
    unfold depths ev
    rw [List.getElem?_map, List.getD_eq_getElem?_getD, List.getElem?_eq_getElem hi]
    rfl
  obtain ⟨hlt, hget⟩ := List.getElem?_eq_some_iff.mp hget
  have hnot : s.depths.count (m + 1) = 0 := by
    rw [List.count_eq_zero]
    intro hmem
    have hle := (h.bounds _ hmem).2
    omega
  constructor
  · intro d hd hle
    rw [hdepths, List.count_set hlt, hget]
    have hne : ¬ (-1 : Int) = d := by omega
    by_cases heq : d = m + 1
    · subst heq
      simp [hne, hnot]
    · have honce := h.once d hd (by omega)
      simp [hne, honce, Ne.symm heq]
  · intro d hd
    rw [hdepths] at hd
    rcases List.mem_or_eq_of_mem_set hd with hd | rfl
    · have hb := h.bounds d hd
      omega
    · omega
  · intro e he
    rcases mem_modifyEvent he with he | ⟨e', he', rfl⟩
    · exact h.pointed e he
    · refine ⟨rfl, ?_⟩
      show decision.depth ≠ -1
      omega
  · exact h.referring.modifyEvent i (fun _ => rfl) fun _ _ hw => Or.inl hw

theorem getElem?_depths (s : RFSCTraceBuilder Λ) {k : Nat} (hk : k < s.prefixEvents.length) :
    s.depths[k]? = some (s.ev k).decisionDepth := by
  unfold depths ev
  rw [List.getElem?_map, List.getD_eq_getElem?_getD, List.getElem?_eq_getElem hk]
  rfl

/-- A decided event is not deeper than the trace. -/
theorem Placed.depth_le {m : Int} {s : RFSCTraceBuilder Λ} (h : s.Placed m) {k : Nat}
    (hk : k < s.prefixEvents.length) {d : DecisionNode}
    (hd : (s.ev k).decisionPtr = some d) : d.depth ≤ m := by
  have hpointed := h.pointed _ (s.ev_mem hk)
  unfold Event.Pointed at hpointed
  rw [hd] at hpointed
  rw [← hpointed.1]
  exact (h.bounds _ (List.mem_of_getElem? (s.getElem?_depths hk))).2

/-- The state in front of round `k` of `compute_unfolding`.  Events behind the
leaf that were not looked at have no decision. -/
structure Unfolding (s₀ : RFSCTraceBuilder Λ) (replayPoint k : Nat)
    (st : RFSCTraceBuilder Λ × DecisionNode) : Prop where
  length : st.1.prefixEvents.length = s₀.prefixEvents.length
  threads : st.1.threads = s₀.threads
  prefixIdx : st.1.prefixIdx = s₀.prefixIdx
  mutexDeadlocks : st.1.mutexDeadlocks = s₀.mutexDeadlocks
  siblings : st.1.siblings = s₀.siblings
  placed : st.1.Placed st.2.depth
  asserts : ∀ j < s₀.prefixEvents.length, j < k ∨ j < replayPoint → (st.1.ev j).Asserts
  fresh : ∀ j < s₀.prefixEvents.length, k ≤ j → replayPoint ≤ j →
    (st.1.ev j).pinned = false ∧ (st.1.ev j).decisionDepth = -1

theorem Unfolding.step {s₀ s : RFSCTraceBuilder Λ} {deepest : DecisionNode}
    {replayPoint k : Nat} (h : Unfolding s₀ replayPoint k (s, deepest)) (ids : Nat → Nat)
    (hk : k < s₀.prefixEvents.length) :
    Unfolding s₀ replayPoint (k + 1) (unfoldEvent replayPoint ids (s, deepest) k) := by
  have hlen : s.prefixEvents.length = s₀.prefixEvents.length := h.length
  have hks : k < s.prefixEvents.length := hlen ▸ hk
  have hev : ∀ unf j, j < s.prefixEvents.length → (s.setEvent k unf).ev j =
      if k = j then { s.ev j with event := unf } else s.ev j :=
    fun unf j hj => ev_modifyEvent s k _ hj
  have hsetLen : ∀ unf, (s.setEvent k unf).prefixEvents.length = s.prefixEvents.length :=
    fun unf => length_modifyEvent s k _
  -- the unfolding event does not matter for the decisions
  have hasserts : ∀ unf j, j < s.prefixEvents.length → (s.ev j).Asserts →
      ((s.setEvent k unf).ev j).Asserts := by
    intro unf j hj hasserts
    rw [hev unf j hj]
    split
    · exact ⟨hasserts.exclusive, hasserts.loads⟩
    · exact hasserts
  have hfresh : ∀ unf j, j < s.prefixEvents.length →
      (s.ev j).pinned = false ∧ (s.ev j).decisionDepth = -1 →
      ((s.setEvent k unf).ev j).pinned = false ∧
        ((s.setEvent k unf).ev j).decisionDepth = -1 := by
    intro unf j hj hfresh
    rw [hev unf j hj]
    split <;> exact hfresh
  rcases unfoldEvent_cases replayPoint ids (fun d hd => h.placed.depth_le hks hd) with
    ⟨hnot, unf, heq⟩ | ⟨⟨hpoint, hload⟩, unf, source, heq⟩
  · rw [heq]
    refine ⟨(hsetLen unf).trans hlen, h.threads, h.prefixIdx, h.mutexDeadlocks, h.siblings,
      h.placed.setEvent k unf, fun j hj hor => ?_, fun j hj hle hpoint => ?_⟩
    · refine hasserts unf j (hlen ▸ hj) ?_
      by_cases hjk : j < k ∨ j < replayPoint
      · exact h.asserts j hj hjk
      · -- a new event that is no load
        obtain rfl : j = k := by omega
        obtain ⟨hpinned, hdepth⟩ := h.fresh j hj (by omega) (by omega)
        have hnoload : ¬ (s.ev j).sym.isLoad := fun hload => hnot ⟨by omega, hload⟩
        exact ⟨by simp [hpinned], by simp [hpinned, hdepth, hnoload]⟩
    · exact hfresh unf j (hlen ▸ hj) (h.fresh j hj (by omega) hpoint)
  · rw [heq]
    obtain ⟨hpinned, hdepth⟩ := h.fresh k hk (Nat.le_refl k) hpoint
    have hev' : ∀ j, j < s.prefixEvents.length →
        ((((s.setEvent k unf).allocUnf (.child deepest (ids k)) source).setDecision k
          (.child deepest (ids k))).ev j) =
        if k = j then
          { (s.setEvent k unf).ev j with
            decisionPtr := some (.child deepest (ids k))
            decisionDepth := (DecisionNode.child deepest (ids k)).depth }
        else (s.setEvent k unf).ev j :=
      fun j hj => ev_modifyEvent _ k _ ((hsetLen unf).symm ▸ hj)
    have hplaced := (h.placed.setEvent k unf).congr
      (t := (s.setEvent k unf).allocUnf (.child deepest (ids k)) source) rfl rfl
    refine ⟨?_, h.threads, h.prefixIdx, h.mutexDeadlocks, h.siblings, ?_, fun j hj hor => ?_,
      fun j hj hle hpoint => ?_⟩
    · exact (length_modifyEvent _ _ _).trans ((hsetLen unf).trans hlen)
    · refine hplaced.setDecision ((hsetLen unf).symm ▸ hks) ?_ rfl deepest.neg_one_le_depth
      exact (hfresh unf k hks ⟨hpinned, hdepth⟩).2
    · rw [hev' j (hlen ▸ hj)]
      split
      · next hkj =>
        subst hkj
        have hne : (DecisionNode.child deepest (ids k)).depth ≠ -1 := by
          have hmin := deepest.neg_one_le_depth
          show deepest.depth + 1 ≠ -1
          omega
        have hload' : ((s.setEvent k unf).ev k).sym.isLoad := by
          rw [hev unf k hks, if_pos rfl]
          exact hload
        refine ⟨fun hboth => ?_, fun _ => Or.inl hne, fun _ => hload'⟩
        have hpinned' := (hfresh unf k hks ⟨hpinned, hdepth⟩).1
        rw [hpinned'] at hboth
        exact absurd hboth.2 Bool.false_ne_true
      · exact hasserts unf j (hlen ▸ hj) (h.asserts j hj (by omega))
    · rw [hev' j (hlen ▸ hj), if_neg (by omega)]
      exact hfresh unf j (hlen ▸ hj) (h.fresh j hj (by omega) hpoint)

theorem Unfolding.run {s₀ : RFSCTraceBuilder Λ} {item : DecisionNode} {replayPoint : Nat}
    (h : Unfolding s₀ replayPoint 0 (s₀, item)) (ids : Nat → Nat) {k : Nat}
    (hk : k ≤ s₀.prefixEvents.length) :
    Unfolding s₀ replayPoint k
      ((List.range k).foldl (unfoldEvent replayPoint ids) (s₀, item)) := by
  induction k with
  | zero => exact h
  | succ k ih =>
    rw [List.range_succ, List.foldl_append]
    exact (ih (Nat.le_of_succ_le hk)).step ids hk

/-! ## Executions of a leaf -/

/-- Each depth up to that of the item occurs once, and the loads without a
depth are pinned. -/
structure Consistent (item : DecisionNode) (leaf : List Branch) : Prop where
  fits : Fits item leaf
  once : ∀ d, 0 ≤ d → d ≤ item.depth → (leaf.map Branch.decisionDepth).count d = 1
  exclusive : ∀ b ∈ leaf, ¬ (b.decisionDepth ≠ -1 ∧ b.pinned)
  loads : ∀ b ∈ leaf, b.sym.isLoad ↔ b.decisionDepth ≠ -1 ∨ b.pinned

/-- The trace of an execution of a work item, in front of `compute_prefixes`. -/
structure Recorded (item : DecisionNode) (leaf : List Branch) (s : RFSCTraceBuilder Λ) :
    Prop where
  replays : Replays item leaf s.prefixEvents
  referring : s.Referring
  blocked : s.BlockedAtEnd
  siblings : s.siblings = []

section Execution

variable {item : DecisionNode} {leaf : List Branch} {s : RFSCTraceBuilder Λ}

/-- New events have no depth. -/
theorem depths_of_replays (h : Replays item leaf s.prefixEvents) : s.depths =
    leaf.map Branch.decisionDepth ++
      List.replicate (s.prefixEvents.length - leaf.length) (-1) := by
  refine List.ext_getElem? fun k => ?_
  unfold depths
  rw [List.getElem?_map]
  by_cases hk : k < leaf.length
  · obtain ⟨e, he, _, _, hdecides⟩ := h.old k _ (List.getElem?_eq_getElem hk)
    rw [List.getElem?_append_left (by rwa [List.length_map]), he, List.getElem?_map,
      List.getElem?_eq_getElem hk]
    exact congrArg some hdecides.depth_eq
  · rw [List.getElem?_append_right (by rw [List.length_map]; omega), List.length_map,
      List.getElem?_replicate]
    cases he : s.prefixEvents[k]? with
    | none =>
      have hlen := List.getElem?_eq_none_iff.mp he
      rw [if_neg (by omega)]
      rfl
    | some e =>
      obtain ⟨hlt, _⟩ := List.getElem?_eq_some_iff.mp he
      rw [if_pos (by omega)]
      exact congrArg some (h.new k e (by omega) he).2.depth_eq

theorem Consistent.placed (hc : Consistent item leaf)
    (hreplays : Replays item leaf s.prefixEvents) (href : s.Referring) :
    s.Placed item.depth where
  once d hd hle := by
    have hne : ¬ (-1 : Int) = d := by omega
    rw [depths_of_replays hreplays, List.count_append, hc.once d hd hle, List.count_replicate,
      if_neg (by simpa using hne)]
  bounds d hd := by
    obtain ⟨e, he, rfl⟩ := List.mem_map.mp hd
    exact (hreplays.decides hc.fits he).2
  pointed e he := by
    obtain ⟨hdecides, hmin, hmax⟩ := hreplays.decides hc.fits he
    exact hdecides.pointed hmin hmax
  referring := href

/-- What `compute_unfolding` starts from. -/
theorem Recorded.unfolding (h : Recorded item leaf s) (hc : Consistent item leaf) :
    Unfolding s leaf.length 0 (s, item) := by
  have hget : ∀ j, j < s.prefixEvents.length → s.prefixEvents[j]? = some (s.ev j) := by
    intro j hj
    unfold ev
    rw [List.getD_eq_getElem?_getD, List.getElem?_eq_getElem hj]
    rfl
  refine ⟨rfl, rfl, rfl, rfl, rfl, hc.placed h.replays h.referring, fun j hj hor => ?_,
    fun j hj _ hle => ?_⟩
  · have hlt : j < leaf.length := by omega
    obtain ⟨e, he, hpinned, hload, hdecides⟩ :=
      h.replays.old j _ (List.getElem?_eq_getElem hlt)
    rw [hget j hj] at he
    obtain rfl := Option.some.inj he
    constructor
    · rw [hpinned, hdecides.depth_eq]
      exact hc.exclusive _ (List.getElem_mem hlt)
    · rw [hpinned, hdecides.depth_eq, hload]
      exact hc.loads _ (List.getElem_mem hlt)
  · obtain ⟨hpinned, hdecides⟩ := h.replays.new j _ hle (hget j hj)
    exact ⟨hpinned, hdecides.depth_eq⟩

/-- Behind `compute_unfolding` all loads that are not pinned have a decision. -/
theorem Recorded.unfolded (h : Recorded item leaf s) (hc : Consistent item leaf)
    (ids : Nat → Nat) :
    (s.computeUnfolding item leaf.length ids).1.Placed
        (s.computeUnfolding item leaf.length ids).2.depth ∧
      (s.computeUnfolding item leaf.length ids).1.Asserted ∧
      (s.computeUnfolding item leaf.length ids).1.BlockedAtEnd ∧
      (s.computeUnfolding item leaf.length ids).1.siblings = [] := by
  have hrun := (h.unfolding hc).run ids (Nat.le_refl _)
  change Unfolding s leaf.length _ (s.computeUnfolding item leaf.length ids) at hrun
  refine ⟨hrun.placed, fun e he => ?_, fun hblocked => ?_, hrun.siblings.trans h.siblings⟩
  · obtain ⟨j, hj, rfl⟩ := exists_ev_of_mem he
    rw [hrun.length] at hj
    exact hrun.asserts j hj (Or.inl hj)
  · rw [hrun.mutexDeadlocks] at hblocked
    rw [hrun.prefixIdx, hrun.length]
    exact h.blocked hblocked

end Execution

/-! ## `order_to_leaf` -/

/-- The leaf has the branches of the order.  Those of the loads without a depth
from 0 to `d` are pinned and have no decision, the others keep their depth, and
each of these depths occurs once. -/
structure PinnedLeaf (t : RFSCTraceBuilder Λ) (d : Int) (order : List Nat)
    (leaf : List Branch) : Prop where
  length : leaf.length = order.length
  pinned : ∀ (k i : Nat) (b : Branch), order[k]? = some i → leaf[k]? = some b →
    (b.pinned ↔ (t.ev i).sym.isLoad ∧
      ¬ (0 ≤ (t.ev i).decisionDepth ∧ (t.ev i).decisionDepth ≤ d)) ∧
    (b.pinned → b.decisionDepth = -1) ∧
    (¬ b.pinned → b.decisionDepth = (t.ev i).decisionDepth)
  once : ∀ e, 0 ≤ e → e ≤ d → (leaf.map Branch.decisionDepth).count e = 1

section Leaf

variable {t : RFSCTraceBuilder Λ} {m d : Int} {order : List Nat}

theorem IsOrder.lt (h : t.IsOrder d order) (href : t.Referring) {i : Nat} (hi : i ∈ order) :
    i < t.prefixEvents.length := by
  have hlt := lt_of_marked ((h.mem i).mp hi)
  rwa [causalPast, length_markAll href.inRange] at hlt

/-- The events of the order are those of the causal past, each once. -/
theorem IsOrder.perm (h : t.IsOrder d order) (href : t.Referring) :
    order.Perm ((List.range t.prefixEvents.length).filter (marked (t.causalPast d))) := by
  refine (List.perm_ext_iff_of_nodup h.nodup (List.nodup_range.filter _)).mpr fun i => ?_
  rw [List.mem_filter, List.mem_range, h.mem]
  constructor
  · exact fun hi => ⟨h.lt href ((h.mem i).mpr hi), hi⟩
  · exact fun hi => hi.2

theorem depths_eq_map_range (t : RFSCTraceBuilder Λ) :
    t.depths = (List.range t.prefixEvents.length).map fun i => (t.ev i).decisionDepth := by
  refine List.ext_getElem? fun k => ?_
  rw [List.getElem?_map]
  by_cases hk : k < t.prefixEvents.length
  · rw [t.getElem?_depths hk, List.getElem?_range hk]
    rfl
  · rw [List.getElem?_eq_none (by unfold depths; rw [List.length_map]; omega),
      List.getElem?_eq_none (by rw [List.length_range]; omega)]
    rfl

/-- A depth up to `d` is at an event of the causal past. -/
theorem marked_of_depth (href : t.Referring) {i : Nat} (hi : i < t.prefixEvents.length)
    (hmin : 0 ≤ (t.ev i).decisionDepth) (hle : (t.ev i).decisionDepth ≤ d) :
    marked (t.causalPast d) i := by
  refine (href.causalPast_isLeast d).1.1 ⟨hi, ?_⟩
  unfold isRoot
  have hne : (t.ev i).decisionDepth ≠ -1 := by omega
  simp [hne, hle]

theorem Placed.pinnedLeaf (h : t.Placed m) (hasserted : t.Asserted) (hmin : -1 ≤ d)
    (hd : d ≤ m) (horder : t.IsOrder d order) (sizes : Nat → Nat) (changed : List Nat) :
    PinnedLeaf t d order (t.orderToLeaf sizes d changed order) where
  length := List.length_map ..
  pinned k i b hi hb := by
    unfold orderToLeaf at hb
    rw [List.getElem?_map, hi] at hb
    obtain rfl := Option.some.inj hb
    have hlt := horder.lt h.referring (List.mem_of_getElem? hi)
    have hasserts := hasserted _ (t.ev_mem hlt)
    have hbound := (h.bounds _ (List.mem_of_getElem? (t.getElem?_depths hlt))).1
    have hpinned : (t.ev i).pinned → (t.ev i).decisionDepth = -1 := by
      intro hpin
      by_contra hne
      exact hasserts.exclusive ⟨hne, hpin⟩
    unfold branchOf
    dsimp only
    by_cases hlate : d < (t.ev i).decisionDepth
    · have hload : (t.ev i).sym.isLoad := hasserts.loads.mpr (Or.inl (by omega))
      have hout : ¬ (0 ≤ (t.ev i).decisionDepth ∧ (t.ev i).decisionDepth ≤ d) := by omega
      simp [hlate, hload, hout]
    · rw [if_neg hlate, decide_eq_false hlate, Bool.or_false]
      refine ⟨⟨fun hpin => ?_, fun ⟨hload, hout⟩ => ?_⟩, hpinned, fun _ => rfl⟩
      · have hnone := hpinned hpin
        exact ⟨hasserts.loads.mpr (Or.inr hpin), by omega⟩
      · exact (hasserts.loads.mp hload).resolve_left (not_not.mpr (by omega))
  once e he hle := by
    have hmap : (t.orderToLeaf sizes d changed order).map Branch.decisionDepth =
        order.map fun i =>
          if d < (t.ev i).decisionDepth then -1 else (t.ev i).decisionDepth := by
      unfold orderToLeaf
      rw [List.map_map]
      rfl
    rw [hmap, ((horder.perm h.referring).map _).count_eq, ← h.once e he (Int.le_trans hle hd),
      depths_eq_map_range, List.count_eq_countP, List.count_eq_countP, List.countP_map,
      List.countP_map, List.countP_filter]
    refine List.countP_congr fun i hi => ?_
    have hlt := List.mem_range.mp hi
    simp only [Function.comp, Bool.and_eq_true, beq_iff_eq]
    constructor
    · intro ⟨heq, _⟩
      split at heq
      · omega
      · exact heq
    · intro heq
      refine ⟨?_, marked_of_depth h.referring hlt (by omega) (by omega)⟩
      rw [if_neg (by omega)]
      exact heq

end Leaf

/-! ## The exploration -/

/-- A leaf that `try_sat` gives is of an order of the causal past up to the
decision of the last change, and the assertions of `causal_past` hold. -/
def MakesLeaves (env : Env (List Branch)) : Prop :=
  ∀ s changed leaf, (env.trySat s changed).2 = some leaf →
    s.Asserted ∧ ∃ last sizes order, changed.getLast? = some last ∧
      s.IsOrder (s.decisionOf last).depth order ∧
      leaf = s.orderToLeaf sizes (s.decisionOf last).depth changed order

/-- The work items and their leaves: the root, and the siblings that an
execution of a work item constructs. -/
inductive Explored : DecisionNode → List Branch → Prop
  | root : Explored .root []
  | sibling {item leaf} (explored : Explored item leaf) {s : RFSCTraceBuilder (List Branch)}
      (recorded : Recorded item leaf s) (ids : Nat → Nat) {env : Env (List Branch)}
      (makes : MakesLeaves env) {x : DecisionNode × UnfoldingNode × List Branch}
      (hx : x ∈ ((s.computeUnfolding item leaf.length ids).1.computePrefixes env).siblings)
      (id : Nat) : Explored (.child (parentOf x.1) id) x.2.2

/-- A sibling has the depth of the decision that it is made for. -/
theorem depth_sibling {d : DecisionNode} (hd : d.depth ≠ -1) (id : Nat) :
    (DecisionNode.child (parentOf d) id).depth = d.depth := by
  cases d with
  | root => exact absurd rfl hd
  | child parent id' => rfl

/-- A leaf of a causal past may be carried by a sibling of its last decision. -/
theorem Placed.consistent {t : RFSCTraceBuilder Λ} {m d : Int} {order : List Nat}
    (h : t.Placed m) (hasserted : t.Asserted) (hmin : -1 ≤ d) (hd : d ≤ m)
    (horder : t.IsOrder d order) (sizes : Nat → Nat) (changed : List Nat)
    {item : DecisionNode} (hitem : item.depth = d) :
    Consistent item (t.orderToLeaf sizes d changed order) := by
  have hleaf := h.pinnedLeaf hasserted hmin hd horder sizes changed
  have hbranch : ∀ b ∈ t.orderToLeaf sizes d changed order, ∃ i < t.prefixEvents.length,
      b = t.branchOf sizes d changed i := by
    intro b hb
    obtain ⟨i, hi, rfl⟩ := List.mem_map.mp hb
    exact ⟨i, horder.lt h.referring hi, rfl⟩
  constructor
  · intro b hb
    obtain ⟨i, hi, rfl⟩ := hbranch b hb
    have hbound := (h.bounds _ (List.mem_of_getElem? (t.getElem?_depths hi))).1
    unfold branchOf
    dsimp only
    split
    · exact ⟨Int.le_refl _, item.neg_one_le_depth⟩
    · exact ⟨hbound, by omega⟩
  · intro e he hle
    exact hleaf.once e he (hitem ▸ hle)
  · intro b hb
    obtain ⟨i, hi, rfl⟩ := hbranch b hb
    have hexclusive := (hasserted _ (t.ev_mem hi)).exclusive
    unfold branchOf
    dsimp only
    by_cases hlate : d < (t.ev i).decisionDepth
    · simp [hlate]
    · rw [if_neg hlate, decide_eq_false hlate, Bool.or_false]
      exact hexclusive
  · intro b hb
    obtain ⟨i, hi, rfl⟩ := hbranch b hb
    have hloads := (hasserted _ (t.ev_mem hi)).loads
    unfold branchOf
    dsimp only
    by_cases hlate : d < (t.ev i).decisionDepth
    · have hload : (t.ev i).sym.isLoad := hloads.mpr (Or.inl (by omega))
      simp [hlate, hload]
    · rw [if_neg hlate, decide_eq_false hlate, Bool.or_false]
      exact hloads

/-- Every leaf that is replayed has each depth up to that of its item once, and
pins the other loads. -/
theorem Explored.consistent {item : DecisionNode} {leaf : List Branch}
    (h : Explored item leaf) : Consistent item leaf := by
  induction h with
  | root =>
    have hnone : ∀ {P : Branch → Prop}, ∀ b ∈ ([] : List Branch), P b :=
      fun b hb => absurd hb List.not_mem_nil
    refine ⟨hnone, fun d hd hle => ?_, hnone, hnone⟩
    have hroot : DecisionNode.root.depth = -1 := rfl
    omega
  | @sibling item leaf explored s recorded ids env makes x hx id ih =>
    obtain ⟨hplaced, hasserted, hblocked, hnone⟩ := recorded.unfolded ih ids
    have hmin := DecisionNode.neg_one_le_depth
    have hwitnessed := Witnessed.computePrefixesUpTo env hplaced (hmin _) hblocked hasserted
      (Nat.le_refl _)
    rcases hwitnessed.siblings _ hx with hx | ⟨t, changed, last, hvisited, hlast, hptr, hcall⟩
    · rw [hnone] at hx
      cases hx
    · obtain ⟨hassertedT, last', sizes, order, hlast', horder, hleaf⟩ := makes t changed _ hcall
      rw [hlast] at hlast'
      obtain rfl := Option.some.inj hlast'
      have hdecision : t.decisionOf last = x.1 := by
        unfold decisionOf
        rw [hptr]
        rfl
      have hplacedT := hvisited.placed hplaced (hmin _)
      have hlt : last < t.prefixEvents.length := by
        by_contra hge
        unfold ev at hptr
        rw [List.getD_eq_getElem?_getD, List.getElem?_eq_none (by omega)] at hptr
        cases hptr
      have hpointed := hplacedT.pointed _ (t.ev_mem hlt)
      unfold Event.Pointed at hpointed
      rw [hptr] at hpointed
      rw [hdecision] at horder hleaf
      rw [hleaf]
      exact hplacedT.consistent hassertedT (hmin _) (hplacedT.depth_le hlt hptr) horder sizes
        changed (depth_sibling (hpointed.1 ▸ hpointed.2) id)

/-- The first execution of a thread with one load. -/
def oneLoad : RFSCTraceBuilder (List Branch) where
  prefixEvents := [{ iid := ⟨0, 1⟩, readFrom := some (-1), sym := .load ⟨.global 0, 0, 1⟩ }]
  prefixIdx := 0
  threads := [⟨[], -1, [0]⟩]
  mutexDeadlocks := []
  belowClocks := []

theorem recorded_oneLoad : Recorded .root [] oneLoad where
  replays := by
    refine ⟨fun k b hb => ?_, fun k e _ he => ?_⟩
    · rw [List.getElem?_nil] at hb
      exact absurd hb.symm (Option.some_ne_none b)
    · obtain rfl := List.mem_singleton.mp (List.mem_of_getElem? he)
      exact ⟨rfl, rfl, rfl⟩
  referring := by
    constructor
    · decide +revert
    · decide
    · decide
    · decide
  blocked := fun hblocked => absurd rfl hblocked
  siblings := rfl

end RFSCTraceBuilder

end ViEqui.Rfsc
