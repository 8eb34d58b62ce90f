import ViEqui.ComputePrefixes
import ViEqui.RfscLeaf
import ViEqui.Lib.Marking

/-!
# Causal pasts and leaves

`try_sat` keeps the causal past of the decisions up to the one that changes,
and makes a leaf of an order of these events.

* `causalPast`, `orderToLeaf`: the events that are kept, and their branches.
* `Placed`: each decision up to a depth is at one event.  The attempts of
  `compute_prefixes` move decisions, and each of the states that they go
  through (`Visited`) has them placed.
* `Referring.causalPast_isLeast`: the causal past is the least closed set.
-/

namespace ViEqui.Rfsc

open AssocMap Marking

/-- The pointer of an event is to a decision of its depth. -/
def Event.Pointed (e : Event) : Prop :=
  match e.decisionPtr with
  | none => e.decisionDepth = -1
  | some d => e.decisionDepth = d.depth ∧ e.decisionDepth ≠ -1

theorem Event.Decides.pointed {e : Event} {item : DecisionNode} {depth : Int} (h : e.Decides item depth)
    (hmin : -1 ≤ depth) (hmax : depth ≤ item.depth) : e.Pointed := by
  unfold Event.Pointed
  rw [h.ptr]
  by_cases hnone : depth = -1
  · rw [if_pos hnone]
    exact h.depth_eq.trans hnone
  · rw [if_neg hnone]
    dsimp only
    rw [h.depth_eq, item.depth_findAncestor hmin hmax]
    exact ⟨rfl, hnone⟩

/-- What `causal_past` asserts of an event. -/
structure Event.Asserts (e : Event) : Prop where
  exclusive : ¬ (e.decisionDepth ≠ -1 ∧ e.pinned)
  loads : e.sym.isLoad ↔ e.decisionDepth ≠ -1 ∨ e.pinned

namespace RFSCTraceBuilder

variable {Λ : Type}

/-! ## The causal past -/

/-- `po_predecessor`. -/
def poPredecessor (s : RFSCTraceBuilder Λ) (i : Nat) : Option Nat :=
  let iid := (s.ev i).iid
  if iid.idx = 1 then none else some (s.findProcessEvent iid.pid (iid.idx - 1))

/-- The event that `i` reads from, if it is not the initial value. -/
def readSource (s : RFSCTraceBuilder Λ) (i : Nat) : List Nat :=
  match (s.ev i).readFrom with
  | some w => if w = -1 then [] else [w.toNat]
  | none => []

/-- The calls that `causal_past_1` makes for `i`, in their order. -/
def causes (s : RFSCTraceBuilder Λ) (i : Nat) : List Nat :=
  s.readSource i ++ (s.ev i).happensAfter ++ (s.poPredecessor i).toList

/-- The events that `causal_past` starts from. -/
def isRoot (s : RFSCTraceBuilder Λ) (decision : Int) (i : Nat) : Bool :=
  (s.ev i).decisionDepth ≠ -1 ∧ (s.ev i).decisionDepth ≤ decision

/-- `causal_past`.  Its recursion `causal_past_1` is a search by flags. -/
def causalPast (s : RFSCTraceBuilder Λ) (decision : Int) : List Bool :=
  markAll s.causes (s.isRoot decision) s.prefixEvents.length

/-- The assertions of `causal_past` hold. -/
def Asserted (s : RFSCTraceBuilder Λ) : Prop := ∀ e ∈ s.prefixEvents, e.Asserts

/-- The branch that `order_to_leaf` makes of the event `i`. -/
def branchOf (s : RFSCTraceBuilder Λ) (sizes : Nat → Nat) (decision : Int)
    (changed : List Nat) (i : Nat) : Branch :=
  let e := s.ev i
  { pid := e.iid.pid
    size := if i ∈ changed then 1 else sizes i
    decisionDepth := if decision < e.decisionDepth then -1 else e.decisionDepth
    pinned := e.pinned || decision < e.decisionDepth
    sym := e.sym }

/-- `order_to_leaf`.  `sizes` holds the sizes of the events. -/
def orderToLeaf (s : RFSCTraceBuilder Λ) (sizes : Nat → Nat) (decision : Int)
    (changed order : List Nat) : List Branch :=
  order.map (s.branchOf sizes decision changed)

/-- An order of the causal past. -/
structure IsOrder (s : RFSCTraceBuilder Λ) (decision : Int) (order : List Nat) : Prop where
  nodup : order.Nodup
  mem : ∀ i, i ∈ order ↔ marked (s.causalPast decision) i

/-- What the events and threads refer to is in the trace. -/
structure Referring (s : RFSCTraceBuilder Λ) : Prop where
  reads : ∀ e ∈ s.prefixEvents, ∀ w, e.readFrom = some w → w ≠ -1 →
    w.toNat < s.prefixEvents.length
  after : ∀ e ∈ s.prefixEvents, ∀ j ∈ e.happensAfter, j < s.prefixEvents.length
  indices : ∀ th ∈ s.threads, ∀ j ∈ th.eventIndices, j < s.prefixEvents.length
  spawns : ∀ th ∈ s.threads, th.spawnEvent.toNat ≤ s.prefixEvents.length - 1

theorem ev_mem (s : RFSCTraceBuilder Λ) {i : Nat} (hi : i < s.prefixEvents.length) :
    s.ev i ∈ s.prefixEvents := by
  unfold ev
  rw [List.getD_eq_getElem?_getD, List.getElem?_eq_getElem hi]
  exact List.getElem_mem hi

theorem exists_ev_of_mem {s : RFSCTraceBuilder Λ} {e : Event} (he : e ∈ s.prefixEvents) :
    ∃ i < s.prefixEvents.length, s.ev i = e := by
  obtain ⟨i, hi, rfl⟩ := List.getElem_of_mem he
  refine ⟨i, hi, ?_⟩
  unfold ev
  rw [List.getD_eq_getElem?_getD, List.getElem?_eq_getElem hi, Option.getD_some]

theorem Referring.findProcessEvent_lt {s : RFSCTraceBuilder Λ} (h : s.Referring)
    (hpos : 0 < s.prefixEvents.length) (pid index : Nat) :
    s.findProcessEvent pid index < s.prefixEvents.length := by
  unfold findProcessEvent
  rw [List.getD_eq_getElem?_getD, List.getD_eq_getElem?_getD]
  cases hth : s.threads[pid]? with
  | none => exact hpos
  | some th =>
    rw [Option.getD_some]
    cases hj : th.eventIndices[index - 1]? with
    | none => exact hpos
    | some j =>
      exact h.indices th (List.mem_of_getElem? hth) j (List.mem_of_getElem? hj)

theorem Referring.inRange {s : RFSCTraceBuilder Λ} (h : s.Referring) :
    InRange s.causes s.prefixEvents.length := by
  intro i hi j hj
  have hmem := s.ev_mem hi
  unfold causes at hj
  rcases List.mem_append.mp hj with hj | hj
  · rcases List.mem_append.mp hj with hj | hj
    · unfold readSource at hj
      split at hj
      · next w hw =>
        split at hj
        · cases hj
        · next hne =>
          rw [List.mem_singleton.mp hj]
          exact h.reads _ hmem w hw hne
      · cases hj
    · exact h.after _ hmem j hj
  · have hpos : 0 < s.prefixEvents.length := by omega
    unfold poPredecessor at hj
    dsimp only at hj
    split at hj
    · cases hj
    · rw [Option.toList_some, List.mem_singleton] at hj
      rw [hj]
      exact h.findProcessEvent_lt hpos _ _

/-- The causal past is the least set of events that contains the decisions up
to a depth and is closed under causes. -/
theorem Referring.causalPast_isLeast {s : RFSCTraceBuilder Λ} (h : s.Referring)
    (decision : Int) :
    IsLeast {t : Set Nat | {i | i < s.prefixEvents.length ∧ s.isRoot decision i} ⊆ t ∧
      Closed s.causes t} {i | marked (s.causalPast decision) i} :=
  markAll_isLeast h.inRange _

/-! ## Where the decisions are -/

/-- The decision depths of the trace. -/
def depths (s : RFSCTraceBuilder Λ) : List Int := s.prefixEvents.map Event.decisionDepth

/-- Each decision up to the depth `m` is at one event, and there are no others. -/
structure Placed (m : Int) (s : RFSCTraceBuilder Λ) : Prop where
  once : ∀ d, 0 ≤ d → d ≤ m → s.depths.count d = 1
  bounds : ∀ d ∈ s.depths, -1 ≤ d ∧ d ≤ m
  pointed : ∀ e ∈ s.prefixEvents, e.Pointed
  referring : s.Referring

theorem mem_modifyEvent {s : RFSCTraceBuilder Λ} {i : Nat} {f : Event → Event} {e : Event}
    (he : e ∈ (s.modifyEvent i f).prefixEvents) :
    e ∈ s.prefixEvents ∨ ∃ e' ∈ s.prefixEvents, e = f e' := by
  obtain ⟨k, hk⟩ := List.getElem?_of_mem he
  change (s.prefixEvents.modify i f)[k]? = some e at hk
  rw [List.getElem?_modify] at hk
  obtain ⟨e', he', heq⟩ := Option.map_eq_some_iff.mp hk
  split at heq
  · exact Or.inr ⟨e', List.mem_of_getElem? he', heq.symm⟩
  · exact Or.inl (heq ▸ List.mem_of_getElem? he')

theorem depths_modifyEvent (s : RFSCTraceBuilder Λ) (i : Nat) {f : Event → Event}
    (hf : ∀ e, (f e).decisionDepth = e.decisionDepth) : (s.modifyEvent i f).depths = s.depths := by
  unfold depths
  refine List.ext_getElem? fun k => ?_
  rw [List.getElem?_map, List.getElem?_map]
  change ((s.prefixEvents.modify i f)[k]?).map _ = _
  rw [List.getElem?_modify]
  cases s.prefixEvents[k]? with
  | none => rfl
  | some e =>
    split
    · exact congrArg some (hf e)
    · rfl

theorem Referring.modifyEvent {s : RFSCTraceBuilder Λ} (h : s.Referring) (i : Nat)
    {f : Event → Event} (hafter : ∀ e, (f e).happensAfter = e.happensAfter)
    (hreads : ∀ e w, (f e).readFrom = some w → e.readFrom = some w ∨
      (w ≠ -1 → w.toNat < s.prefixEvents.length)) : (s.modifyEvent i f).Referring where
  reads e he w hw hne := by
    rw [length_modifyEvent]
    rcases mem_modifyEvent he with he | ⟨e', he', rfl⟩
    · exact h.reads e he w hw hne
    · rcases hreads e' w hw with hw | hlt
      · exact h.reads e' he' w hw hne
      · exact hlt hne
  after e he j hj := by
    rw [length_modifyEvent]
    rcases mem_modifyEvent he with he | ⟨e', he', rfl⟩
    · exact h.after e he j hj
    · rw [hafter] at hj
      exact h.after e' he' j hj
  indices th hth j hj := by
    rw [length_modifyEvent]
    exact h.indices th hth j hj
  spawns th hth := by
    rw [length_modifyEvent]
    exact h.spawns th hth

/-- An update that keeps decisions and refers to events of the trace. -/
theorem Placed.modifyEvent {m : Int} {s : RFSCTraceBuilder Λ} (h : s.Placed m) (i : Nat)
    {f : Event → Event} (hdepth : ∀ e, (f e).decisionDepth = e.decisionDepth)
    (hptr : ∀ e, (f e).decisionPtr = e.decisionPtr)
    (hafter : ∀ e, (f e).happensAfter = e.happensAfter)
    (hreads : ∀ e w, (f e).readFrom = some w → e.readFrom = some w ∨
      (w ≠ -1 → w.toNat < s.prefixEvents.length)) : (s.modifyEvent i f).Placed m where
  once d hd hm := by
    rw [depths_modifyEvent s i hdepth]
    exact h.once d hd hm
  bounds d hd := by
    rw [depths_modifyEvent s i hdepth] at hd
    exact h.bounds d hd
  pointed e he := by
    rcases mem_modifyEvent he with he | ⟨e', he', rfl⟩
    · exact h.pointed e he
    · have hpointed := h.pointed e' he'
      unfold Event.Pointed at hpointed ⊢
      rwa [hptr, hdepth]
  referring := h.referring.modifyEvent i hafter hreads

theorem Placed.congr {m : Int} {s t : RFSCTraceBuilder Λ} (h : s.Placed m)
    (hevents : t.prefixEvents = s.prefixEvents) (hthreads : t.threads = s.threads) :
    t.Placed m := by
  obtain ⟨honce, hbounds, hpointed, hreads, hafter, hindices, hspawns⟩ := h
  unfold depths at honce hbounds
  rw [← hevents] at honce hbounds hpointed hreads hafter hindices hspawns
  rw [← hthreads] at hindices hspawns
  exact ⟨honce, hbounds, hpointed, hreads, hafter, hindices, hspawns⟩

theorem Placed.setSym {m : Int} {s : RFSCTraceBuilder Λ} (h : s.Placed m) (i : Nat)
    (sym : SymEv) : (s.setSym i sym).Placed m :=
  h.modifyEvent i (fun _ => rfl) (fun _ => rfl) (fun _ => rfl) fun _ _ hw => Or.inl hw

theorem depths_decisionSwap (s : RFSCTraceBuilder Λ) {i j : Nat} (hij : i ≠ j)
    (hi : i < s.prefixEvents.length) (hj : j < s.prefixEvents.length) :
    (s.decisionSwap i j).depths.Perm s.depths := by
  have hlen : s.depths.length = s.prefixEvents.length := List.length_map ..
  have hperm := List.set_set_perm (show i < s.depths.length from hlen.symm ▸ hi)
    (show j < s.depths.length from hlen.symm ▸ hj)
  refine List.Perm.trans (List.Perm.of_eq ?_) hperm
  have hev : ∀ k, k < s.prefixEvents.length → s.depths[k]? = some (s.ev k).decisionDepth := by
    intro k hk
    unfold depths ev
    rw [List.getElem?_map, List.getD_eq_getElem?_getD, List.getElem?_eq_getElem hk]
    rfl
  have hget : ∀ k (hk : k < s.depths.length), s.depths[k] = (s.ev k).decisionDepth := by
    intro k hk
    have h := hev k (hlen ▸ hk)
    rw [List.getElem?_eq_getElem hk] at h
    exact Option.some.inj h
  refine List.ext_getElem? fun k => ?_
  rw [hget i, hget j, List.getElem?_set, List.getElem?_set, List.length_set, hlen]
  by_cases hk : k < s.prefixEvents.length
  · have hswap : (s.decisionSwap i j).depths[k]? =
        some ((s.decisionSwap i j).ev k).decisionDepth := by
      unfold depths ev
      rw [List.getElem?_map, List.getD_eq_getElem?_getD,
        List.getElem?_eq_getElem (by rw [length_decisionSwap]; exact hk)]
      rfl
    rw [hswap, ev_decisionSwap s hij hk, hev k hk]
    by_cases hki : k = i
    · subst hki
      simp [Ne.symm hij, hk]
    · by_cases hkj : k = j
      · subst hkj
        simp [hki, hk]
      · simp [hki, hkj, Ne.symm hki, Ne.symm hkj]
  · have hnone : (s.decisionSwap i j).depths[k]? = none := by
      refine List.getElem?_eq_none ?_
      unfold depths
      rw [List.length_map, length_decisionSwap]
      omega
    have hnone' : s.depths[k]? = none := List.getElem?_eq_none (by omega)
    have hki : i ≠ k := by omega
    have hkj : j ≠ k := by omega
    rw [hnone, if_neg hkj, if_neg hki, hnone']

theorem Placed.decisionSwap {m : Int} {s : RFSCTraceBuilder Λ} (h : s.Placed m) {i j : Nat}
    (hij : i ≠ j) (hi : i < s.prefixEvents.length) (hj : j < s.prefixEvents.length) :
    (s.decisionSwap i j).Placed m := by
  have hlen := length_decisionSwap s i j
  have hperm := depths_decisionSwap s hij hi hj
  -- an event behind the swap has the pointer and the depth of one in front of
  -- it, and the other fields of one
  have hmem : ∀ e ∈ (s.decisionSwap i j).prefixEvents, ∃ e' ∈ s.prefixEvents,
      ∃ f ∈ s.prefixEvents, e.decisionPtr = f.decisionPtr ∧
        e.decisionDepth = f.decisionDepth ∧ e.readFrom = e'.readFrom ∧
        e.happensAfter = e'.happensAfter := by
    intro e he
    obtain ⟨k, hk, rfl⟩ := exists_ev_of_mem he
    rw [hlen] at hk
    rw [ev_decisionSwap s hij hk]
    split
    · exact ⟨_, s.ev_mem hi, _, s.ev_mem hj, rfl, rfl, rfl, rfl⟩
    · split
      · exact ⟨_, s.ev_mem hj, _, s.ev_mem hi, rfl, rfl, rfl, rfl⟩
      · exact ⟨_, s.ev_mem hk, _, s.ev_mem hk, rfl, rfl, rfl, rfl⟩
  constructor
  · intro d hd hm
    rw [hperm.count_eq]
    exact h.once d hd hm
  · exact fun d hd => h.bounds d (hperm.mem_iff.mp hd)
  · intro e he
    obtain ⟨_, _, f, hf, hptr, hdepth, _, _⟩ := hmem e he
    have hpointed := h.pointed f hf
    unfold Event.Pointed at hpointed ⊢
    rwa [hptr, hdepth]
  · constructor
    · intro e he w hw hne
      obtain ⟨e', he', _, _, _, _, hread, _⟩ := hmem e he
      rw [hlen]
      exact h.referring.reads e' he' w (hread ▸ hw) hne
    · intro e he k hk
      obtain ⟨e', he', _, _, _, _, _, hafter⟩ := hmem e he
      rw [hlen]
      exact h.referring.after e' he' k (hafter ▸ hk)
    · intro th hth k hk
      rw [hlen]
      exact h.referring.indices th hth k hk
    · intro th hth
      rw [hlen]
      exact h.referring.spawns th hth

theorem mem_addHappensAfter {happensAfter : List Nat} {first j : Nat} :
    j ∈ addHappensAfter happensAfter first ↔ j ∈ happensAfter ∨ j = first := by
  unfold addHappensAfter
  split
  · next hlast =>
    constructor
    · exact Or.inl
    · rintro (hj | rfl)
      · exact hj
      · exact List.mem_of_getLast? hlast
  · rw [List.mem_append, List.mem_singleton]

/-- What `compute_above_clock` leaves alone, and what it adds. -/
theorem withAboveClock_spec (s : RFSCTraceBuilder Λ) (e : Event) :
    (s.withAboveClock e).decisionPtr = e.decisionPtr ∧
      (s.withAboveClock e).decisionDepth = e.decisionDepth ∧
      (s.withAboveClock e).readFrom = e.readFrom ∧
      ∀ k ∈ (s.withAboveClock e).happensAfter, k ∈ e.happensAfter ∨
        ∃ th ∈ s.threads, 0 ≤ th.spawnEvent ∧ k = th.spawnEvent.toNat := by
  unfold withAboveClock
  dsimp only
  refine ⟨rfl, rfl, rfl, fun k hk => ?_⟩
  split at hk
  · exact Or.inl hk
  · split at hk
    · next hspawn =>
      rcases mem_addHappensAfter.mp hk with hk | hk
      · exact Or.inl hk
      · rw [List.getD_eq_getElem?_getD] at hspawn hk
        cases hth : s.threads[e.iid.pid]? with
        | none =>
          rw [hth] at hspawn
          exact absurd hspawn (by decide)
        | some th =>
          rw [hth] at hspawn hk
          exact Or.inr ⟨th, List.mem_of_getElem? hth, hspawn, hk⟩
    · exact Or.inl hk

/-- The event of a blocked thread has no decision yet. -/
theorem prefixEvents_pushBlocked (s : RFSCTraceBuilder Λ) (jp jidx : Nat)
    (addr : SymAddrSize) (alt : UnfoldingNode)
    (hend : s.prefixIdx + 1 = s.prefixEvents.length) :
    ∃ e, (s.pushBlocked jp jidx addr alt).prefixEvents = s.prefixEvents ++ [e] ∧
      e.decisionPtr = none ∧ e.decisionDepth = -1 ∧ e.readFrom = none ∧
      ∀ k ∈ e.happensAfter, ∃ th ∈ (s.pushBlocked jp jidx addr alt).threads,
        k = th.spawnEvent.toNat := by
  have hmodify : ∀ (l : List Event) (e : Event) (f : Event → Event),
      (l ++ [e]).modify l.length f = l ++ [f e] := by
    intro l e f
    induction l with
    | nil => rfl
    | cons x l ih => exact congrArg (x :: ·) ih
  unfold pushBlocked
  dsimp only
  rw [hend, Int.toNat_natCast]
  unfold RFSCTraceBuilder.modifyEvent
  dsimp only
  rw [hmodify]
  refine ⟨_, hmodify _ _ _, ?_⟩
  obtain ⟨hptr, hdepth, hread, hafter⟩ := withAboveClock_spec
    (modifyThread { s with
      prefixIdx := (s.prefixEvents.length : Int)
      prefixEvents := s.prefixEvents ++
        [({ iid := ⟨jp, jidx⟩, sym := .mLock addr, event := alt } : Event)] } jp fun th =>
      { th with eventIndices := th.eventIndices ++ [s.prefixEvents.length] })
    { iid := ⟨jp, jidx⟩, sym := .mLock addr, event := alt }
  refine ⟨hptr, hdepth, hread, fun k hk => ?_⟩
  rcases hafter k hk with hk | ⟨th, hth, _, heq⟩
  · cases hk
  · exact ⟨th, hth, heq⟩

theorem threads_pushBlocked (s : RFSCTraceBuilder Λ) (jp jidx : Nat) (addr : SymAddrSize)
    (alt : UnfoldingNode) :
    (s.pushBlocked jp jidx addr alt).threads = s.threads.modify jp fun th =>
      { th with eventIndices := th.eventIndices ++ [(s.prefixIdx + 1).toNat] } :=
  rfl

theorem Placed.pushBlocked {m : Int} {s : RFSCTraceBuilder Λ} (h : s.Placed m) (jp jidx : Nat)
    (addr : SymAddrSize) (alt : UnfoldingNode)
    (hend : s.prefixIdx + 1 = s.prefixEvents.length) (hm : -1 ≤ m) :
    (s.pushBlocked jp jidx addr alt).Placed m := by
  obtain ⟨e, hevents, hptr, hdepth, hread, hafter⟩ :=
    prefixEvents_pushBlocked s jp jidx addr alt hend
  have hdepths : (s.pushBlocked jp jidx addr alt).depths = s.depths ++ [-1] := by
    unfold depths
    rw [hevents, List.map_append, List.map_singleton, hdepth]
  have hlen := length_pushBlocked s jp jidx addr alt
  have hthread : ∀ th ∈ (s.pushBlocked jp jidx addr alt).threads, ∃ th' ∈ s.threads,
      th.spawnEvent = th'.spawnEvent ∧
        ∀ j ∈ th.eventIndices, j ∈ th'.eventIndices ∨ j = s.prefixEvents.length := by
    intro th hth
    rw [threads_pushBlocked] at hth
    obtain ⟨k, hk⟩ := List.getElem?_of_mem hth
    rw [List.getElem?_modify] at hk
    obtain ⟨th', hth', heq⟩ := Option.map_eq_some_iff.mp hk
    refine ⟨th', List.mem_of_getElem? hth', ?_⟩
    split at heq
    · rw [← heq]
      refine ⟨rfl, fun j hj => ?_⟩
      rw [hend, Int.toNat_natCast] at hj
      rcases List.mem_append.mp hj with hj | hj
      · exact Or.inl hj
      · exact Or.inr (List.mem_singleton.mp hj)
    · rw [← heq]
      exact ⟨rfl, fun j hj => Or.inl hj⟩
  have hmem : ∀ e' ∈ (s.pushBlocked jp jidx addr alt).prefixEvents,
      e' ∈ s.prefixEvents ∨ e' = e := by
    intro e' he'
    rw [hevents] at he'
    rcases List.mem_append.mp he' with he' | he'
    · exact Or.inl he'
    · exact Or.inr (List.mem_singleton.mp he')
  have hspawns : ∀ th ∈ (s.pushBlocked jp jidx addr alt).threads,
      th.spawnEvent.toNat ≤ s.prefixEvents.length := by
    intro th hth
    obtain ⟨th', hth', heq, _⟩ := hthread th hth
    have hle := h.referring.spawns th' hth'
    rw [heq]
    omega
  constructor
  · intro d hd hm
    have hne : ¬ (-1 : Int) = d := by omega
    rw [hdepths, List.count_append, h.once d hd hm, List.count_singleton, if_neg]
    simpa using hne
  · intro d hd
    rw [hdepths] at hd
    rcases List.mem_append.mp hd with hd | hd
    · exact h.bounds d hd
    · rw [List.mem_singleton.mp hd]
      omega
  · intro e' he'
    rcases hmem e' he' with he' | rfl
    · exact h.pointed e' he'
    · unfold Event.Pointed
      rw [hptr]
      exact hdepth
  · constructor
    · intro e' he' w hw hne
      rw [hlen]
      rcases hmem e' he' with he' | rfl
      · exact Nat.lt_succ_of_lt (h.referring.reads e' he' w hw hne)
      · rw [hread] at hw
        cases hw
    · intro e' he' j hj
      rw [hlen]
      rcases hmem e' he' with he' | rfl
      · exact Nat.lt_succ_of_lt (h.referring.after e' he' j hj)
      · obtain ⟨th, hth, rfl⟩ := hafter j hj
        exact Nat.lt_succ_of_le (hspawns th hth)
    · intro th hth j hj
      obtain ⟨th', hth', _, hindices⟩ := hthread th hth
      rw [hlen]
      rcases hindices j hj with hj | rfl
      · exact Nat.lt_succ_of_lt (h.referring.indices th' hth' j hj)
      · exact Nat.lt_succ_self _
    · intro th hth
      have hle := hspawns th hth
      rw [hlen]
      omega

/-! ## The states of the attempts -/

/-- The events and the threads are the same.  The tables of `compute_prefixes`
and of the decisions need not be. -/
structure SameTrace (t s : RFSCTraceBuilder Λ) : Prop where
  prefixEvents : t.prefixEvents = s.prefixEvents
  threads : t.threads = s.threads
  prefixIdx : t.prefixIdx = s.prefixIdx

theorem Unchanged.sameTrace {s t : RFSCTraceBuilder Λ} (h : Unchanged t s) : SameTrace t s :=
  ⟨h.prefixEvents, h.threads, h.prefixIdx⟩

/-- The states that the attempts of `compute_prefixes` go through from `s₀`: an
event gets another source or symbolic event or is pinned, two events exchange
their decisions, or the event of a blocked thread is appended. -/
inductive Visited (s₀ : RFSCTraceBuilder Λ) : RFSCTraceBuilder Λ → Prop
  | start : Visited s₀ s₀
  | same {s t} : Visited s₀ s → SameTrace t s → Visited s₀ t
  | readFrom {s} (i : Nat) (w : Int) : Visited s₀ s →
      (w ≠ -1 → w.toNat < s.prefixEvents.length) → Visited s₀ (s.setReadFrom i w)
  | recompute {s} (idx : Nat) (a : SymAddr) : Visited s₀ s →
      Visited s₀ (s.recomputeCmpxhgSuccess idx a).1
  | undo {s} (log : CmpXhgUndoLog) (idx : Nat) (a : SymAddr) : Visited s₀ s →
      Visited s₀ (s.undoCmpxhgRecomputation log idx a)
  | pin {s} (i : Nat) (pinned : Bool) : Visited s₀ s → Visited s₀ (s.setPinned i pinned)
  | swap {s} (i j : Nat) : Visited s₀ s → i ≠ j → i < s.prefixEvents.length →
      j < s.prefixEvents.length → Visited s₀ (s.decisionSwap i j)
  | blocked {s} (jp jidx : Nat) (addr : SymAddrSize) (alt : UnfoldingNode) :
      Visited s₀ s → s.prefixIdx + 1 = s.prefixEvents.length →
      Visited s₀ (s.pushBlocked jp jidx addr alt)

/-- In each of these states the decisions are placed. -/
theorem Visited.placed {m : Int} {s₀ s : RFSCTraceBuilder Λ} (hvisited : Visited s₀ s)
    (h : s₀.Placed m) (hm : -1 ≤ m) : s.Placed m := by
  induction hvisited with
  | start => exact h
  | same _ hsame ih => exact ih.congr hsame.prefixEvents hsame.threads
  | readFrom i w _ hw ih =>
    refine ih.modifyEvent i (fun _ => rfl) (fun _ => rfl) (fun _ => rfl) fun e v hv => ?_
    cases hv
    exact Or.inr hw
  | recompute idx a _ ih =>
    exact (ih.setSym idx _).congr rfl rfl
  | undo log idx a _ ih => exact (ih.setSym idx _).congr rfl rfl
  | pin i pinned _ ih =>
    exact ih.modifyEvent i (fun _ => rfl) (fun _ => rfl) (fun _ => rfl) fun e v hv => Or.inl hv
  | swap i j _ hij hi hj ih => exact ih.decisionSwap hij hi hj
  | blocked jp jidx addr alt _ hend ih => exact ih.pushBlocked jp jidx addr alt hend hm

end RFSCTraceBuilder

end ViEqui.Rfsc
