import ViEqui.RfscTrace

/-!
# Leaves and their replay

A work item of RFSC carries a leaf: the events to replay, with the decisions
that are open in it.  `reset` makes the prefix of the next execution from it,
and `cancel_replay` prunes the decision that an execution failed for.

* `Branch`, `resetPrefix`: a leaf, and the prefix that `reset` makes of it.
* `Replays`: a prefix while it is executed.  New events have no decision.
* `cancelReplay`: `none` is undefined behaviour, a null pointer that is
  dereferenced or an index out of range.
* `prunesBlamed_iff`: when the decision of the greatest depth is pruned.  Its
  depth is used as an index into the prefix.
-/

namespace ViEqui

namespace DecisionNode

/-- The nodes on the path to the root, without the root. -/
def path : DecisionNode → List DecisionNode
  | root => []
  | child parent id => child parent id :: path parent

theorem isPruned_iff (pruned : List DecisionNode) (x : DecisionNode) :
    x.isPruned pruned ↔ ∃ n ∈ pruned, n ∈ x.path := by
  induction x with
  | root => simp [isPruned, path]
  | child parent id ih =>
    unfold isPruned path
    rw [Bool.or_eq_true, ih, List.contains_iff_mem]
    constructor
    · rintro (hmem | ⟨n, hn, hpath⟩)
      · exact ⟨_, hmem, List.mem_cons_self⟩
      · exact ⟨n, hn, List.mem_cons_of_mem _ hpath⟩
    · intro ⟨n, hn, hpath⟩
      rcases List.mem_cons.mp hpath with rfl | hpath
      · exact Or.inl hn
      · exact Or.inr ⟨n, hn, hpath⟩

theorem isPruned_cons (node : DecisionNode) (pruned : List DecisionNode)
    (x : DecisionNode) :
    x.isPruned (node :: pruned) ↔ node ∈ x.path ∨ ∃ n ∈ pruned, n ∈ x.path := by
  rw [isPruned_iff, List.exists_mem_cons_iff]

theorem neg_one_le_depth (x : DecisionNode) : -1 ≤ x.depth := by
  induction x with
  | root => exact Int.le_refl _
  | child parent id ih =>
    show -1 ≤ parent.depth + 1
    omega

/-- `find_ancestor` finds a node of the wanted depth. -/
theorem depth_findAncestor {wanted : Int} (x : DecisionNode) (hmin : -1 ≤ wanted)
    (hmax : wanted ≤ x.depth) : (x.findAncestor wanted).depth = wanted := by
  induction x with
  | root => exact Int.le_antisymm hmin hmax
  | child parent id ih =>
    unfold findAncestor
    split
    · next heq => exact heq
    · next hne =>
      have hdepth : (child parent id).depth = parent.depth + 1 := rfl
      apply ih
      omega

end DecisionNode

namespace Rfsc

open AssocMap

/-- `Branch`. -/
structure Branch where
  pid : Nat
  size : Nat
  decisionDepth : Int
  pinned : Bool
  sym : SymEv
deriving DecidableEq

/-! ## `reset` -/

/-- `set_branch_decision`. -/
def Event.setBranchDecision (e : Event) (decision : Int) (item : DecisionNode) : Event :=
  { e with
    decisionDepth := decision
    decisionPtr := if decision = -1 then none else some (item.findAncestor decision) }

/-- The loop of `reset` over the leaf.  `iidMap` holds the index of the next
event of each thread, 1 for a new one. -/
def resetPrefixFrom (item : DecisionNode) : Map Nat Nat → List Branch → List Event
  | _, [] => []
  | iidMap, b :: leaf =>
    let e : Event := { iid := ⟨b.pid, getD iidMap b.pid 1⟩, sym := b.sym, pinned := b.pinned }
    e.setBranchDecision b.decisionDepth item ::
      resetPrefixFrom item (modify iidMap b.pid 1 (· + b.size)) leaf

/-- The prefix behind `reset`. -/
def resetPrefix (item : DecisionNode) (leaf : List Branch) : List Event :=
  resetPrefixFrom item [] leaf

/-- The event has the decision that a depth stands for. -/
structure Event.Decides (e : Event) (item : DecisionNode) (depth : Int) : Prop where
  depth_eq : e.decisionDepth = depth
  ptr : e.decisionPtr = if depth = -1 then none else some (item.findAncestor depth)

/-- The events of an execution: those of the leaf, and then new ones.  The
execution sets the other fields of an event.  A replayed event is compatible
with its branch, so both are loads or none. -/
structure Replays (item : DecisionNode) (leaf : List Branch) (events : List Event) : Prop where
  old : ∀ (k : Nat) (b : Branch), leaf[k]? = some b → ∃ e, events[k]? = some e ∧
    e.pinned = b.pinned ∧ e.sym.isLoad = b.sym.isLoad ∧ e.Decides item b.decisionDepth
  new : ∀ (k : Nat) (e : Event), leaf.length ≤ k → events[k]? = some e →
    e.pinned = false ∧ e.Decides item (-1)

/-- `assert(node->depth >= wanted)` of `find_ancestor`, for the whole leaf. -/
def Fits (item : DecisionNode) (leaf : List Branch) : Prop :=
  ∀ b ∈ leaf, -1 ≤ b.decisionDepth ∧ b.decisionDepth ≤ item.depth

theorem getElem?_resetPrefixFrom (item : DecisionNode) (iidMap : Map Nat Nat)
    (leaf : List Branch) (k : Nat) :
    (leaf[k]? = none ∧ (resetPrefixFrom item iidMap leaf)[k]? = none) ∨
      ∃ b index, leaf[k]? = some b ∧ (resetPrefixFrom item iidMap leaf)[k]? = some
        (Event.setBranchDecision { iid := ⟨b.pid, index⟩, sym := b.sym, pinned := b.pinned }
          b.decisionDepth item) := by
  induction leaf generalizing iidMap k with
  | nil => exact Or.inl ⟨rfl, rfl⟩
  | cons b leaf ih =>
    cases k with
    | zero => exact Or.inr ⟨b, _, rfl, rfl⟩
    | succ k => exact ih _ k

/-- A prefix is replayed right behind `reset`. -/
theorem replays_resetPrefix (item : DecisionNode) (leaf : List Branch) :
    Replays item leaf (resetPrefix item leaf) where
  old k b hb := by
    rcases getElem?_resetPrefixFrom item [] leaf k with ⟨hnone, _⟩ | ⟨b', index, hb', he⟩
    · rw [hb] at hnone
      cases hnone
    · rw [hb] at hb'
      cases hb'
      exact ⟨_, he, rfl, rfl, rfl, rfl⟩
  new k e hk he := by
    rcases getElem?_resetPrefixFrom item [] leaf k with ⟨_, hnone⟩ | ⟨b, index, hb, _⟩
    · rw [resetPrefix, hnone] at he
      cases he
    · rw [List.getElem?_eq_none hk] at hb
      cases hb

/-- Every event of a replay has the decision of its depth. -/
theorem Replays.decides {item : DecisionNode} {leaf : List Branch} {events : List Event}
    (h : Replays item leaf events) (hfits : Fits item leaf) {e : Event} (he : e ∈ events) :
    e.Decides item e.decisionDepth ∧ -1 ≤ e.decisionDepth ∧ e.decisionDepth ≤ item.depth := by
  obtain ⟨k, hk⟩ := List.getElem?_of_mem he
  by_cases hlt : k < leaf.length
  · obtain ⟨e', he', _, _, hdecides⟩ := h.old k _ (List.getElem?_eq_getElem hlt)
    rw [hk] at he'
    cases he'
    rw [hdecides.depth_eq]
    exact ⟨hdecides, hfits _ (List.getElem_mem hlt)⟩
  · have hdecides := (h.new k e (by omega) hk).2
    rw [hdecides.depth_eq]
    exact ⟨hdecides, Int.le_refl _, item.neg_one_le_depth⟩

/-! ## `cancel_replay` -/

namespace RFSCTraceBuilder

variable {Λ : Type}

/-- `prefix[0..prefix_idx]`. -/
def executed (s : RFSCTraceBuilder Λ) : List Event :=
  s.prefixEvents.take (s.prefixIdx + 1).toNat

/-- The loop of `cancel_replay`. -/
def blame (s : RFSCTraceBuilder Λ) : Int :=
  s.executed.foldl (fun blame e => max blame e.decisionDepth) (-1)

/-- `cancel_replay`, on the nodes whose `pruned_subtree` is set. -/
def cancelReplay (s : RFSCTraceBuilder Λ) (pruned : List DecisionNode) :
    Option (List DecisionNode) :=
  if s.blame ≠ -1 then do
    -- the depth is an index here
    let e ← s.prefixEvents[s.blame.toNat]?
    let node ← e.decisionPtr
    return node :: pruned
  else some pruned

/-- No event that was executed has a greater decision depth. -/
def Greatest (s : RFSCTraceBuilder Λ) (e : Event) : Prop :=
  e ∈ s.executed ∧ e.decisionDepth ≠ -1 ∧
    ∀ e' ∈ s.executed, e'.decisionDepth ≤ e.decisionDepth

/-- The decision of the greatest depth is marked, and nothing is when there is
none. -/
structure PrunesBlamed (s : RFSCTraceBuilder Λ) (pruned : List DecisionNode) : Prop where
  unchanged : (∀ e ∈ s.executed, e.decisionDepth = -1) → s.cancelReplay pruned = some pruned
  marks : ∀ e, s.Greatest e → ∃ node, e.decisionPtr = some node ∧
    node.depth = e.decisionDepth ∧ s.cancelReplay pruned = some (node :: pruned) ∧
    ∀ x : DecisionNode, x.isPruned (node :: pruned) ↔
      node ∈ x.path ∨ ∃ n ∈ pruned, n ∈ x.path

/-- The event at the position of the greatest depth has that depth. -/
def BlameInPlace (s : RFSCTraceBuilder Λ) : Prop :=
  ∀ e, s.Greatest e → ∃ e', s.prefixEvents[e.decisionDepth.toNat]? = some e' ∧
    e'.decisionDepth = e.decisionDepth

theorem foldl_max_decisionDepth (events : List Event) (start : Int) :
    (start ≤ events.foldl (fun blame e => max blame e.decisionDepth) start ∧
      ∀ e ∈ events,
        e.decisionDepth ≤ events.foldl (fun blame e => max blame e.decisionDepth) start) ∧
      (events.foldl (fun blame e => max blame e.decisionDepth) start = start ∨
        ∃ e ∈ events,
          e.decisionDepth = events.foldl (fun blame e => max blame e.decisionDepth) start) := by
  induction events generalizing start with
  | nil => exact ⟨⟨Int.le_refl _, fun _ he => absurd he List.not_mem_nil⟩, Or.inl rfl⟩
  | cons e events ih =>
    rw [List.foldl_cons]
    obtain ⟨⟨hstart, hle⟩, heq⟩ := ih (max start e.decisionDepth)
    refine ⟨⟨by omega, ?_⟩, ?_⟩
    · intro e' he'
      rcases List.mem_cons.mp he' with rfl | he'
      · omega
      · exact hle e' he'
    · rcases heq with heq | ⟨e', he', heq⟩
      · by_cases hmax : start ≤ e.decisionDepth
        · refine Or.inr ⟨e, List.mem_cons_self, ?_⟩
          omega
        · exact Or.inl (by omega)
      · exact Or.inr ⟨e', List.mem_cons_of_mem e he', heq⟩

/-- The blame is the greatest depth. -/
theorem Greatest.blame_eq {s : RFSCTraceBuilder Λ} {e : Event} (h : s.Greatest e)
    (hmin : ∀ e ∈ s.executed, -1 ≤ e.decisionDepth) : s.blame = e.decisionDepth := by
  obtain ⟨⟨_, hle⟩, heq⟩ := foldl_max_decisionDepth s.executed (-1)
  have hge := hle e h.1
  have hmin' := hmin e h.1
  have hne := h.2.1
  unfold blame
  rcases heq with heq | ⟨e', he', heq⟩
  · omega
  · have hgreatest := h.2.2 e' he'
    omega

theorem blame_eq_neg_one {s : RFSCTraceBuilder Λ}
    (h : ∀ e ∈ s.executed, e.decisionDepth = -1) : s.blame = -1 := by
  obtain ⟨_, heq | ⟨e, he, heq⟩⟩ := foldl_max_decisionDepth s.executed (-1)
  · exact heq
  · exact heq.symm.trans (h e he)

theorem cancelReplay_eq_some_iff {s : RFSCTraceBuilder Λ} {pruned : List DecisionNode}
    {node : DecisionNode} (hblame : s.blame ≠ -1) :
    s.cancelReplay pruned = some (node :: pruned) ↔
      ∃ e, s.prefixEvents[s.blame.toNat]? = some e ∧ e.decisionPtr = some node := by
  unfold cancelReplay
  rw [if_pos hblame]
  constructor
  · intro h
    obtain ⟨e, he, h⟩ := Option.bind_eq_some_iff.mp h
    obtain ⟨node', hnode, h⟩ := Option.bind_eq_some_iff.mp h
    cases h
    exact ⟨e, he, hnode⟩
  · intro ⟨e, he, hnode⟩
    rw [he, Option.bind_eq_bind, Option.bind_some, hnode]
    rfl

/-- The decision to blame is pruned if and only if it stands at the position of
its depth. -/
theorem prunesBlamed_iff {s : RFSCTraceBuilder Λ} {item : DecisionNode}
    {leaf : List Branch} (pruned : List DecisionNode) (hfits : Fits item leaf)
    (hreplays : Replays item leaf s.prefixEvents) :
    s.PrunesBlamed pruned ↔ s.BlameInPlace := by
  have hdecides : ∀ e ∈ s.prefixEvents, _ := fun e => hreplays.decides hfits
  have hmem : ∀ e ∈ s.executed, e ∈ s.prefixEvents := fun e => List.mem_of_mem_take
  have hmin : ∀ e ∈ s.executed, -1 ≤ e.decisionDepth :=
    fun e he => (hdecides e (hmem e he)).2.1
  have hptr : ∀ e ∈ s.prefixEvents, e.decisionDepth ≠ -1 →
      e.decisionPtr = some (item.findAncestor e.decisionDepth) := by
    intro e he hne
    rw [(hdecides e he).1.ptr, if_neg hne]
  constructor
  · intro h e hgreatest
    have hblame := hgreatest.blame_eq hmin
    have hne : s.blame ≠ -1 := hblame ▸ hgreatest.2.1
    obtain ⟨node, _, hdepth, hcancel, _⟩ := h.marks e hgreatest
    obtain ⟨e', he', hnode⟩ := (cancelReplay_eq_some_iff hne).mp hcancel
    rw [hblame] at he'
    refine ⟨e', he', ?_⟩
    have hmem' := List.mem_of_getElem? he'
    obtain ⟨hdecides', hmin', hmax'⟩ := hdecides e' hmem'
    have hne' : e'.decisionDepth ≠ -1 := by
      intro heq
      rw [hdecides'.ptr, if_pos heq] at hnode
      cases hnode
    rw [hptr e' hmem' hne'] at hnode
    rw [← hdepth, ← Option.some.inj hnode]
    exact (item.depth_findAncestor hmin' hmax').symm
  · intro h
    constructor
    · intro hnone
      unfold cancelReplay
      rw [if_neg (not_not.mpr (blame_eq_neg_one hnone))]
    · intro e hgreatest
      have hblame := hgreatest.blame_eq hmin
      have hne : s.blame ≠ -1 := hblame ▸ hgreatest.2.1
      obtain ⟨e', he', heq⟩ := h e hgreatest
      obtain ⟨_, hmin', hmax'⟩ := hdecides e (hmem e hgreatest.1)
      refine ⟨item.findAncestor e.decisionDepth, hptr e (hmem e hgreatest.1) hgreatest.2.1,
        item.depth_findAncestor hmin' hmax', ?_, fun x => DecisionNode.isPruned_cons _ _ x⟩
      refine (cancelReplay_eq_some_iff hne).mpr ⟨e', by rw [hblame, he'], ?_⟩
      rw [hptr e' (List.mem_of_getElem? he') (heq ▸ hgreatest.2.1), heq]

/-- What the drivers see of `cancel_replay`. -/
theorem cancelReplay_eq_some_iff_depths {s : RFSCTraceBuilder Λ} {item : DecisionNode}
    {leaf : List Branch} (pruned : List DecisionNode) (node : DecisionNode) (hfits : Fits item leaf)
    (hreplays : Replays item leaf s.prefixEvents) {n : Nat} (hidx : s.prefixIdx = n) :
    item.cancelReplay (s.prefixEvents.map Event.decisionDepth) n = some node ↔
      s.cancelReplay pruned = some (node :: pruned) := by
  have hblame : ((s.prefixEvents.map Event.decisionDepth).take (n + 1)).foldl max (-1) =
      s.blame := by
    unfold blame executed
    rw [hidx, ← List.map_take, List.foldl_map]
    rfl
  unfold DecisionNode.cancelReplay
  rw [hblame]
  by_cases hne : s.blame = -1
  · unfold cancelReplay
    simp [hne]
  · rw [cancelReplay_eq_some_iff hne]
    simp only [if_neg hne, List.getElem?_map]
    cases he : s.prefixEvents[s.blame.toNat]? with
    | none => simp
    | some e =>
      have hptr := (hreplays.decides hfits (List.mem_of_getElem? he)).1.ptr
      simp only [Option.map_some, Option.some.injEq, exists_eq_left']
      rw [hptr]

/-- The leaf of a thread that is spawned and stores, and of a load that reads
from it. -/
def spawnStoreLoad : List Branch :=
  [⟨0, 1, -1, false, .spawn 1⟩, ⟨1, 1, -1, false, .store ⟨.global 0, 0, 1⟩ [1]⟩,
    ⟨0, 1, 0, false, .load ⟨.global 0, 0, 1⟩⟩]

/-- The execution that replays a leaf up to an event. -/
def replaying (leaf : List Branch) (prefixIdx : Int) : RFSCTraceBuilder Unit where
  prefixEvents := resetPrefix (.child .root 0) leaf
  prefixIdx
  threads := []
  mutexDeadlocks := []
  belowClocks := []

theorem fits_spawnStoreLoad : Fits (.child .root 0) spawnStoreLoad := by
  unfold Fits
  decide

/-- A failure behind the load dereferences the null pointer of the spawn. -/
theorem not_prunesBlamed_spawnStoreLoad :
    Fits (.child .root 0) spawnStoreLoad ∧
      Replays (.child .root 0) spawnStoreLoad (replaying spawnStoreLoad 2).prefixEvents ∧
      (replaying spawnStoreLoad 2).cancelReplay [] = none ∧
      ¬ (replaying spawnStoreLoad 2).PrunesBlamed [] := by
  have hnone : (replaying spawnStoreLoad 2).cancelReplay [] = none := by decide
  refine ⟨fits_spawnStoreLoad, replays_resetPrefix _ _, hnone, fun h => ?_⟩
  obtain ⟨e, he, hgreatest⟩ : ∃ e ∈ (replaying spawnStoreLoad 2).executed,
      e.decisionDepth ≠ -1 ∧ ∀ e' ∈ (replaying spawnStoreLoad 2).executed,
        e'.decisionDepth ≤ e.decisionDepth := by decide
  obtain ⟨node, _, _, hcancel, _⟩ := h.marks e ⟨he, hgreatest⟩
  rw [hnone] at hcancel
  cases hcancel

/-- A failure in front of the load. -/
theorem prunesBlamed_iff_spawnStoreLoad :
    (replaying spawnStoreLoad 1).PrunesBlamed [] ↔
      (replaying spawnStoreLoad 1).BlameInPlace :=
  prunesBlamed_iff [] fits_spawnStoreLoad (replays_resetPrefix _ _)

end RFSCTraceBuilder

end Rfsc

end ViEqui
