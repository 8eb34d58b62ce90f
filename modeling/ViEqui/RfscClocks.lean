import ViEqui.RfscCausalPast
import ViEqui.Lib.GetD
import ViEqui.Lib.VectorClock

/-!
# The clocks of an RFSC trace

`compute_vclocks` gives each event two clocks of its past, with and without its
own read-from, in a loop over the trace, and a clock of its future in a loop
back.

* `withClock`, `belowRound`, `computeVclocks`: the two loops.
* `Scheduled`: what `schedule` and the recording functions leave.  The events
  of a thread are in a line (`Scheduled.line`).
* `Clocked`, `BelowClocked`: what the loops compute, as equations between the
  clocks of the trace behind them.
* `Clocked.past_iff`, `Clocked.above_iff`, `BelowClocked.future_iff`: what the
  clocks say about happens-before.  A component of a clock of the future that
  is still the top does not tell the last instruction of a thread from an event
  that happens after.
-/

namespace ViEqui.Rfsc

open AssocMap

/-! ## Operations of clocks -/

namespace VClock

/-- `operator-=` of a row of `VClockVec`: the componentwise minimum. -/
def meet (c d : VClock) : VClock := c.map fun x => (x.1, min x.2 (get d x.1))

theorem get_insert (c : VClock) (p k q : Nat) :
    get (insert c p k) q = if p = q then k else get c q :=
  getD_insert c p q k 0

theorem get_eq_zero {c : VClock} {p : Nat} (h : p ∉ c.map Prod.fst) : get c p = 0 := by
  induction c with
  | nil => rfl
  | cons x c ih =>
    rw [List.map_cons, List.mem_cons, not_or] at h
    unfold get getD find?
    rw [if_neg (Ne.symm h.1)]
    exact ih h.2

theorem get_join {d : VClock} (hd : Wf d) (c : VClock) (p : Nat) :
    get (join c d) p = max (get c p) (get d p) := by
  induction d generalizing c with
  | nil => exact (Nat.max_zero _).symm
  | cons x d ih =>
    obtain ⟨hx, hd⟩ := List.nodup_cons.mp hd
    have hcons : get (x :: d) p = if x.1 = p then x.2 else get d p := by
      show (if x.1 = p then some x.2 else find? d p).getD 0 = _
      split <;> rfl
    show get (join (insert c x.1 (max (get c x.1) x.2)) d) p = _
    rw [ih hd, get_insert, hcons]
    by_cases hp : x.1 = p
    · subst hp
      rw [if_pos rfl, if_pos rfl, get_eq_zero hx, Nat.max_zero]
    · rw [if_neg hp, if_neg hp]

theorem wf_join {c : VClock} (hc : Wf c) (d : VClock) : Wf (join c d) := by
  induction d generalizing c with
  | nil => exact hc
  | cons x d ih => exact ih (hc.insert _ _)

theorem get_meet (c d : VClock) (p : Nat) :
    get (meet c d) p = min (get c p) (get d p) := by
  induction c with
  | nil => exact (Nat.zero_min _).symm
  | cons x c ih =>
    show (if x.1 = p then some (min x.2 (get d x.1)) else find? (meet c d) p).getD 0 =
      min ((if x.1 = p then some x.2 else find? c p).getD 0) (get d p)
    by_cases hp : x.1 = p
    · subst hp
      rw [if_pos rfl, if_pos rfl]
      rfl
    · rw [if_neg hp, if_neg hp]
      exact ih

end VClock

namespace RFSCTraceBuilder

variable {Λ : Type}

/-! ## `compute_vclocks` -/

/-- What `compute_above_clock` returns for an event, if it is not -1. -/
def aboveLast (s : RFSCTraceBuilder Λ) (iid : IID) : Option Nat :=
  if 1 < iid.idx then some (s.findProcessEvent iid.pid (iid.idx - 1)) else none

/-- What a round of the first loop makes of an event. -/
def withClock (s : RFSCTraceBuilder Λ) (e : Event) : Event :=
  let e := s.withAboveClock e
  match e.readFrom with
  | some w =>
    if w = -1 then e
    else { e with clock := VClock.join e.clock (s.ev w.toNat).clock }
  | none => e

/-- A round of the first loop, with the local variable `happens_after`. -/
def vclockRound (st : RFSCTraceBuilder Λ × List (List Nat)) (i : Nat) :
    RFSCTraceBuilder Λ × List (List Nat) :=
  let (s, effects) := st
  let s := s.modifyEvent i s.withClock
  let causes := (s.aboveLast (s.ev i).iid).toList ++ (s.ev i).happensAfter ++ s.readSource i
  (s, causes.foldl (fun es j => es.modify j (· ++ [i])) effects)

/-- The top of the lattice of clocks. -/
def topClock (s : RFSCTraceBuilder Λ) : VClock :=
  (List.range s.threads.length).map fun p =>
    (p, (s.threads.getD p default).eventIndices.length)

/-- A round of the second loop. -/
def belowRound (s : RFSCTraceBuilder Λ) (effects : List (List Nat)) (below : List VClock)
    (i : Nat) : List VClock :=
  let clock := insert (below.getD i []) (s.ev i).iid.pid (s.ev i).iid.idx
  below.set i ((effects.getD i []).foldl (fun c j => VClock.meet c (below.getD j [])) clock)

/-- `compute_vclocks`. -/
def computeVclocks (s : RFSCTraceBuilder Λ) : RFSCTraceBuilder Λ :=
  let n := s.prefixEvents.length
  let (s, effects) := (List.range n).foldl vclockRound (s, List.replicate n [])
  { s with
    belowClocks :=
      (List.range n).reverse.foldl (s.belowRound effects) (List.replicate n s.topClock) }

/-! ## Recorded traces -/

/-- The events of the instructions of a thread. -/
def indicesOf (s : RFSCTraceBuilder Λ) (p : Nat) : List Nat :=
  (s.threads.getD p default).eventIndices

/-- What `schedule` and the recording functions leave: `event_indices` has the
event of each instruction of a thread, and an event refers to earlier ones. -/
structure Scheduled (s : RFSCTraceBuilder Λ) : Prop where
  own : ∀ i < s.prefixEvents.length, 1 ≤ (s.ev i).iid.idx ∧
    (s.indicesOf (s.ev i).iid.pid)[(s.ev i).iid.idx - 1]? = some i
  indices : ∀ p k j : Nat, (s.indicesOf p)[k]? = some j → j < s.prefixEvents.length ∧
    (s.ev j).iid.pid = p ∧ (s.ev j).iid.idx ≤ k + 1
  sorted : ∀ p, (s.indicesOf p).Pairwise (· ≤ ·)
  after : ∀ i < s.prefixEvents.length, ∀ j ∈ (s.ev i).happensAfter, j < i
  spawned : ∀ i < s.prefixEvents.length, (s.ev i).iid.idx = 1 →
    0 ≤ (s.threads.getD (s.ev i).iid.pid default).spawnEvent →
    (s.threads.getD (s.ev i).iid.pid default).spawnEvent.toNat < i
  reads : ∀ i < s.prefixEvents.length, ∀ w, (s.ev i).readFrom = some w → w ≠ -1 →
    w.toNat < i
  ended : s.BlockedAtEnd

/-- `a` is a direct cause of `b`. -/
def Edge (s : RFSCTraceBuilder Λ) (a b : Nat) : Prop :=
  b < s.prefixEvents.length ∧ a ∈ s.causes b

/-- The events in front of `i`, without its own read-from. -/
def aboveCauses (s : RFSCTraceBuilder Λ) (i : Nat) : List Nat :=
  (s.ev i).happensAfter ++ (s.poPredecessor i).toList

namespace Scheduled

variable {s : RFSCTraceBuilder Λ} (h : s.Scheduled) {a b i : Nat}
include h

theorem idx_le (hi : i < s.prefixEvents.length) :
    (s.ev i).iid.idx ≤ (s.indicesOf (s.ev i).iid.pid).length := by
  obtain ⟨hpos, hget⟩ := h.own i hi
  obtain ⟨hlt, _⟩ := List.getElem?_eq_some_iff.mp hget
  omega

/-- The events of a thread are in the order of their indices. -/
theorem idx_le_iff (ha : a < s.prefixEvents.length) (hb : b < s.prefixEvents.length)
    (hpid : (s.ev a).iid.pid = (s.ev b).iid.pid) :
    (s.ev a).iid.idx ≤ (s.ev b).iid.idx ↔ a ≤ b := by
  have hle : ∀ {a b}, a < s.prefixEvents.length → b < s.prefixEvents.length →
      (s.ev a).iid.pid = (s.ev b).iid.pid → (s.ev a).iid.idx ≤ (s.ev b).iid.idx → a ≤ b := by
    intro a b ha hb hpid hidx
    obtain ⟨hposa, hgeta⟩ := h.own a ha
    obtain ⟨_, hgetb⟩ := h.own b hb
    rw [hpid] at hgeta
    obtain ⟨hlta, hgeta⟩ := List.getElem?_eq_some_iff.mp hgeta
    obtain ⟨hltb, hgetb⟩ := List.getElem?_eq_some_iff.mp hgetb
    rcases Nat.lt_or_eq_of_le hidx with hlt | heq
    · have hsorted := List.pairwise_iff_getElem.mp (h.sorted _) _ _ hlta hltb (by omega)
      rwa [hgeta, hgetb] at hsorted
    · simp only [heq] at hgeta
      omega
  constructor
  · exact hle ha hb hpid
  · intro hab
    by_contra hgt
    have hba := hle hb ha hpid.symm (by omega)
    have heq : a = b := by omega
    subst heq
    omega

/-- The predecessor in program order is the latest earlier event of the
thread. -/
theorem poPredecessor_spec (hi : i < s.prefixEvents.length) {j : Nat}
    (hj : s.poPredecessor i = some j) :
    j < i ∧ (s.ev j).iid.pid = (s.ev i).iid.pid ∧
      ∀ a < i, (s.ev a).iid.pid = (s.ev i).iid.pid → a ≤ j := by
  obtain ⟨hpos, hget⟩ := h.own i hi
  obtain ⟨hlt, hget⟩ := List.getElem?_eq_some_iff.mp hget
  unfold poPredecessor at hj
  dsimp only at hj
  split at hj
  · cases hj
  · next hne =>
    have hltj : (s.ev i).iid.idx - 1 - 1 < (s.indicesOf (s.ev i).iid.pid).length := by omega
    have hgetj : (s.indicesOf (s.ev i).iid.pid)[(s.ev i).iid.idx - 1 - 1]? = some j := by
      rw [List.getElem?_eq_getElem hltj, ← hj]
      unfold findProcessEvent
      refine congrArg some ?_
      show _ = (s.indicesOf _).getD _ 0
      rw [List.getD_eq_getElem?_getD, List.getElem?_eq_getElem hltj]
      rfl
    obtain ⟨hlen, hpid, hidx⟩ := h.indices _ _ _ hgetj
    obtain ⟨_, hgetj⟩ := List.getElem?_eq_some_iff.mp hgetj
    have hji : j < i := by
      by_contra hge
      have hle := (h.idx_le_iff hi hlen hpid.symm).mpr (by omega)
      omega
    refine ⟨hji, hpid, fun a ha hpida => ?_⟩
    have hidxa : ¬ (s.ev i).iid.idx ≤ (s.ev a).iid.idx := by
      intro hle
      have hia := (h.idx_le_iff hi (Nat.lt_trans ha hi) hpida.symm).mp hle
      omega
    obtain ⟨hposa, hgeta⟩ := h.own a (Nat.lt_trans ha hi)
    rw [hpida] at hgeta
    obtain ⟨hlta, hgeta⟩ := List.getElem?_eq_some_iff.mp hgeta
    rcases Nat.lt_or_eq_of_le (show (s.ev a).iid.idx - 1 ≤ (s.ev i).iid.idx - 1 - 1 by omega)
      with hlt' | heq
    · have hsorted := List.pairwise_iff_getElem.mp (h.sorted _) _ _ hlta hltj hlt'
      rwa [hgeta, hgetj] at hsorted
    · simp only [heq] at hgeta
      omega

theorem poPredecessor_isSome (hi : i < s.prefixEvents.length) (ha : a < i)
    (hpid : (s.ev a).iid.pid = (s.ev i).iid.pid) : (s.poPredecessor i).isSome := by
  have hidx : ¬ (s.ev i).iid.idx ≤ (s.ev a).iid.idx := by
    intro hle
    have hia := (h.idx_le_iff hi (Nat.lt_trans ha hi) hpid.symm).mp hle
    omega
  obtain ⟨hpos, _⟩ := h.own a (Nat.lt_trans ha hi)
  unfold poPredecessor
  dsimp only
  rw [if_neg (by omega)]
  rfl

/-- `compute_above_clock` and `po_predecessor` agree. -/
theorem aboveLast_eq (hi : i < s.prefixEvents.length) :
    s.aboveLast (s.ev i).iid = s.poPredecessor i := by
  obtain ⟨hpos, _⟩ := h.own i hi
  unfold aboveLast poPredecessor
  dsimp only
  split
  · rw [if_neg (by omega)]
  · rw [if_pos (by omega)]

theorem edge_lt (hedge : s.Edge a b) : a < b := by
  obtain ⟨hb, hmem⟩ := hedge
  unfold causes at hmem
  rcases List.mem_append.mp hmem with hmem | hmem
  · rcases List.mem_append.mp hmem with hmem | hmem
    · unfold readSource at hmem
      split at hmem
      · next w hw =>
        split at hmem
        · cases hmem
        · next hne =>
          rw [List.mem_singleton.mp hmem]
          exact h.reads b hb w hw hne
      · cases hmem
    · exact h.after b hb a hmem
  · exact (h.poPredecessor_spec hb (Option.mem_toList.mp hmem)).1

open Relation

theorem past_le (hpast : ReflTransGen s.Edge a b) : a ≤ b := by
  induction hpast with
  | refl => exact Nat.le_refl a
  | tail _ hlast ih => exact Nat.le_trans ih (Nat.le_of_lt (h.edge_lt hlast))

/-- Program order is part of happens-before. -/
theorem line (hb : b < s.prefixEvents.length)
    (hpid : (s.ev a).iid.pid = (s.ev b).iid.pid) (hle : a ≤ b) :
    ReflTransGen s.Edge a b := by
  induction b using Nat.strongRecOn with
  | ind b ih =>
    rcases Nat.lt_or_eq_of_le hle with hlt | rfl
    · obtain ⟨j, hj⟩ := Option.isSome_iff_exists.mp (h.poPredecessor_isSome hb hlt hpid)
      obtain ⟨hjb, hpidj, hlast⟩ := h.poPredecessor_spec hb hj
      refine (ih j hjb (Nat.lt_trans hjb hb) (hpid.trans hpidj.symm) (hlast a hlt hpid)).tail ?_
      exact ⟨hb, List.mem_append.mpr (.inr (Option.mem_toList.mpr hj))⟩
    · exact .refl

end Scheduled

/-! ## The first loop -/

/-- The list `happens_after` behind `compute_above_clock`. -/
def afterSpawn (s : RFSCTraceBuilder Λ) (e : Event) : List Nat :=
  if 1 < e.iid.idx then e.happensAfter
  else if 0 ≤ (s.threads.getD e.iid.pid default).spawnEvent then
    addHappensAfter e.happensAfter (s.threads.getD e.iid.pid default).spawnEvent.toNat
  else e.happensAfter

/-- The join of the clocks of some events. -/
def joinClocks (s : RFSCTraceBuilder Λ) (c : VClock) (js : List Nat) : VClock :=
  js.foldl (fun c j => VClock.join c (s.ev j).clock) c

/-- The clock of the event `last`, if there is one. -/
def clockOf? (s : RFSCTraceBuilder Λ) : Option Nat → VClock
  | some j => (s.ev j).clock
  | none => []

theorem withAboveClock_eq (s : RFSCTraceBuilder Λ) (e : Event) :
    s.withAboveClock e =
      { e with
        happensAfter := s.afterSpawn e
        clock := s.joinClocks (insert (s.clockOf? (s.aboveLast e.iid)) e.iid.pid e.iid.idx)
          (s.afterSpawn e)
        aboveClock := s.joinClocks (insert (s.clockOf? (s.aboveLast e.iid)) e.iid.pid e.iid.idx)
          (s.afterSpawn e) } := by
  unfold withAboveClock afterSpawn aboveLast
  dsimp only
  split
  · rfl
  · split <;> rfl

/-- `readSource`, of the event itself. -/
def sourceOf (e : Event) : List Nat :=
  match e.readFrom with
  | some w => if w = -1 then [] else [w.toNat]
  | none => []

theorem withClock_eq (s : RFSCTraceBuilder Λ) (e : Event) :
    s.withClock e =
      { s.withAboveClock e with
        clock := s.joinClocks (s.withAboveClock e).aboveClock (sourceOf e) } := by
  unfold withClock sourceOf
  rw [withAboveClock_eq]
  dsimp only
  cases e.readFrom with
  | none => rfl
  | some w =>
    dsimp only
    split <;> rfl

theorem joinClocks_congr {s t : RFSCTraceBuilder Λ} {js : List Nat}
    (h : ∀ j ∈ js, (t.ev j).clock = (s.ev j).clock) (c : VClock) :
    t.joinClocks c js = s.joinClocks c js := by
  unfold joinClocks
  refine List.foldl_ext _ _ c fun c j hj => ?_
  rw [h j hj]

theorem Scheduled.lt_of_mem_afterSpawn {s₀ s : RFSCTraceBuilder Λ} (h : s₀.Scheduled)
    {i j : Nat} (hi : i < s₀.prefixEvents.length) (hs : s.threads = s₀.threads)
    (hj : j ∈ s.afterSpawn (s₀.ev i)) : j < i := by
  unfold afterSpawn at hj
  rw [hs] at hj
  obtain ⟨hpos, _⟩ := h.own i hi
  split at hj
  · exact h.after i hi j hj
  · split at hj
    · next hspawn =>
      rcases mem_addHappensAfter.mp hj with hj | rfl
      · exact h.after i hi j hj
      · exact h.spawned i hi (by omega) hspawn
    · exact h.after i hi j hj

/-- A round looks at the clocks of earlier events only. -/
theorem Scheduled.withClock_congr {s₀ s t : RFSCTraceBuilder Λ} (h : s₀.Scheduled) {i : Nat}
    (hi : i < s₀.prefixEvents.length) (hs : s.threads = s₀.threads)
    (ht : t.threads = s₀.threads) (hclock : ∀ j < i, (t.ev j).clock = (s.ev j).clock) :
    t.withClock (s₀.ev i) = s.withClock (s₀.ev i) := by
  have hafter : t.afterSpawn (s₀.ev i) = s.afterSpawn (s₀.ev i) := by
    unfold afterSpawn
    rw [hs, ht]
  have hlast : t.aboveLast (s₀.ev i).iid = s.aboveLast (s₀.ev i).iid := by
    unfold aboveLast findProcessEvent
    rw [hs, ht]
  have hpred : t.clockOf? (s.aboveLast (s₀.ev i).iid) =
      s.clockOf? (s.aboveLast (s₀.ev i).iid) := by
    cases hj : s.aboveLast (s₀.ev i).iid with
    | none => rfl
    | some j =>
      refine hclock j (h.poPredecessor_spec hi ?_).1
      rw [← h.aboveLast_eq hi, ← hj]
      unfold aboveLast findProcessEvent
      rw [hs]
  rw [withClock_eq, withClock_eq, withAboveClock_eq, withAboveClock_eq]
  dsimp only
  rw [hafter, hlast, hpred]
  rw [joinClocks_congr fun j hj => hclock j (h.lt_of_mem_afterSpawn hi hs hj)]
  rw [joinClocks_congr fun j hj => hclock j ?_]
  unfold sourceOf at hj
  split at hj
  · next w hw =>
    split at hj
    · cases hj
    · next hne =>
      rw [List.mem_singleton.mp hj]
      exact h.reads i hi w hw hne
  · cases hj

/-- An update that refers to earlier events. -/
theorem Scheduled.modifyEvent {s : RFSCTraceBuilder Λ} (h : s.Scheduled) (i : Nat)
    {f : Event → Event} (hiid : ∀ e, (f e).iid = e.iid)
    (hread : ∀ e, (f e).readFrom = e.readFrom)
    (hafter : i < s.prefixEvents.length → ∀ j ∈ (f (s.ev i)).happensAfter, j < i) :
    (s.modifyEvent i f).Scheduled := by
  have hlen := length_modifyEvent s i f
  have hev : ∀ k < s.prefixEvents.length, ((s.modifyEvent i f).ev k).iid = (s.ev k).iid ∧
      ((s.modifyEvent i f).ev k).readFrom = (s.ev k).readFrom := by
    intro k hk
    rw [ev_modifyEvent s i f hk]
    split
    · exact ⟨hiid _, hread _⟩
    · exact ⟨rfl, rfl⟩
  constructor
  · intro k hk
    rw [hlen] at hk
    rw [(hev k hk).1]
    exact h.own k hk
  · intro p k j hj
    obtain ⟨hlt, hpid, hidx⟩ := h.indices p k j hj
    rw [hlen, (hev j hlt).1]
    exact ⟨hlt, hpid, hidx⟩
  · exact h.sorted
  · intro k hk j hj
    rw [hlen] at hk
    rw [ev_modifyEvent s i f hk] at hj
    split at hj
    · next hik =>
      subst hik
      exact hafter hk j hj
    · exact h.after k hk j hj
  · intro k hk
    rw [hlen] at hk
    rw [(hev k hk).1]
    exact h.spawned k hk
  · intro k hk
    rw [hlen] at hk
    rw [(hev k hk).2]
    exact h.reads k hk
  · intro hblocked
    rw [hlen]
    exact h.ended hblocked

theorem mem_pushEffects (causes : List Nat) (i : Nat) (effects : List (List Nat)) (a b : Nat) :
    b ∈ (causes.foldl (fun es j => es.modify j (· ++ [i])) effects).getD a [] ↔
      b ∈ effects.getD a [] ∨ b = i ∧ a ∈ causes ∧ a < effects.length := by
  induction causes generalizing effects with
  | nil => simp
  | cons j causes ih =>
    rw [List.foldl_cons, ih, List.length_modify]
    have hmodify : b ∈ (effects.modify j (· ++ [i])).getD a [] ↔
        b ∈ effects.getD a [] ∨ b = i ∧ a = j ∧ a < effects.length := by
      rw [List.getD_eq_getElem?_getD, List.getD_eq_getElem?_getD, List.getElem?_modify]
      by_cases ha : a < effects.length
      · rw [List.getElem?_eq_getElem ha]
        by_cases hj : j = a
        · subst hj
          simp [ha]
        · simp [hj, Ne.symm hj]
      · rw [List.getElem?_eq_none (by omega)]
        simp [ha]
    rw [hmodify, List.mem_cons]
    tauto

theorem length_pushEffects (causes : List Nat) (i : Nat) (effects : List (List Nat)) :
    (causes.foldl (fun es j => es.modify j (· ++ [i])) effects).length = effects.length := by
  induction causes generalizing effects with
  | nil => rfl
  | cons j causes ih => rw [List.foldl_cons, ih, List.length_modify]

/-- The state in front of round `k` of the first loop. -/
structure VclockLoop (s₀ : RFSCTraceBuilder Λ) (k : Nat)
    (st : RFSCTraceBuilder Λ × List (List Nat)) : Prop where
  length : st.1.prefixEvents.length = s₀.prefixEvents.length
  threads : st.1.threads = s₀.threads
  prefixIdx : st.1.prefixIdx = s₀.prefixIdx
  mutexDeadlocks : st.1.mutexDeadlocks = s₀.mutexDeadlocks
  scheduled : st.1.Scheduled
  ahead : ∀ j < s₀.prefixEvents.length, k ≤ j → st.1.ev j = s₀.ev j
  done : ∀ j < s₀.prefixEvents.length, j < k → st.1.ev j = st.1.withClock (s₀.ev j)
  rows : st.2.length = s₀.prefixEvents.length
  effects : ∀ a b, b ∈ st.2.getD a [] ↔ b < k ∧ st.1.Edge a b

theorem causes_congr {s t : RFSCTraceBuilder Λ} {i : Nat} (hthreads : t.threads = s.threads)
    (hiid : (t.ev i).iid = (s.ev i).iid) (hread : (t.ev i).readFrom = (s.ev i).readFrom)
    (hafter : (t.ev i).happensAfter = (s.ev i).happensAfter) : t.causes i = s.causes i := by
  unfold causes readSource poPredecessor findProcessEvent
  rw [hthreads, hiid, hread, hafter]

theorem VclockLoop.step {s₀ : RFSCTraceBuilder Λ} (h₀ : s₀.Scheduled) {k : Nat}
    {st : RFSCTraceBuilder Λ × List (List Nat)} (h : VclockLoop s₀ k st)
    (hk : k < s₀.prefixEvents.length) : VclockLoop s₀ (k + 1) (vclockRound st k) := by
  obtain ⟨s, effects⟩ := st
  have hlen : s.prefixEvents.length = s₀.prefixEvents.length := h.length
  have hthreads : s.threads = s₀.threads := h.threads
  have hev : ∀ j, j < s₀.prefixEvents.length → (s.modifyEvent k s.withClock).ev j =
      if k = j then s.withClock (s.ev j) else s.ev j :=
    fun j hj => ev_modifyEvent s k _ (hlen.symm ▸ hj)
  have hself : s.ev k = s₀.ev k := h.ahead k hk (Nat.le_refl k)
  have hearlier : ∀ j < k, (s.modifyEvent k s.withClock).ev j = s.ev j := by
    intro j hj
    rw [hev j (by omega), if_neg (by omega)]
  have hscheduled : (s.modifyEvent k s.withClock).Scheduled := by
    refine h.scheduled.modifyEvent k ?_ ?_ fun _ j hj => ?_
    · intro e
      rw [withClock_eq, withAboveClock_eq]
    · intro e
      rw [withClock_eq, withAboveClock_eq]
    · rw [withClock_eq, withAboveClock_eq, hself] at hj
      exact h₀.lt_of_mem_afterSpawn hk hthreads hj
  refine ⟨(length_modifyEvent _ _ _).trans hlen, hthreads, h.prefixIdx, h.mutexDeadlocks,
    hscheduled, fun j hj hle => ?_, fun j hj hlt => ?_,
    (length_pushEffects _ _ _).trans h.rows, fun a b => ?_⟩
  · show (s.modifyEvent k s.withClock).ev j = _
    rw [hev j hj, if_neg (by omega)]
    exact h.ahead j hj (by omega)
  · show (s.modifyEvent k s.withClock).ev j = (s.modifyEvent k s.withClock).withClock _
    rw [h₀.withClock_congr hj hthreads (show (s.modifyEvent k s.withClock).threads = _ from
      hthreads) fun i hi => congrArg Event.clock (hearlier i (by omega)), hev j hj]
    split
    · next hkj =>
      subst hkj
      rw [hself]
    · exact h.done j hj (by omega)
  · show b ∈ List.getD (List.foldl _ effects _) a [] ↔ b < k + 1 ∧ (s.modifyEvent k
      s.withClock).Edge a b
    have heffects := h.effects a b
    change b ∈ effects.getD a [] ↔ _ at heffects
    rw [mem_pushEffects, heffects, show effects.length = s₀.prefixEvents.length from h.rows]
    have hcauses : a ∈ (s.modifyEvent k s.withClock).causes k ↔
        a ∈ ((s.modifyEvent k s.withClock).aboveLast
          ((s.modifyEvent k s.withClock).ev k).iid).toList ++
          ((s.modifyEvent k s.withClock).ev k).happensAfter ++
          (s.modifyEvent k s.withClock).readSource k := by
      rw [hscheduled.aboveLast_eq (by rw [length_modifyEvent]; omega)]
      unfold causes
      simp only [List.mem_append]
      tauto
    have hsame : b < k → ((s.modifyEvent k s.withClock).Edge a b ↔ s.Edge a b) := by
      intro hb
      have heq : (s.modifyEvent k s.withClock).causes b = s.causes b :=
        causes_congr rfl (congrArg Event.iid (hearlier b hb))
          (congrArg Event.readFrom (hearlier b hb)) (congrArg Event.happensAfter (hearlier b hb))
      unfold Edge
      rw [length_modifyEvent, heq]
    constructor
    · rintro (⟨hb, hedge⟩ | ⟨rfl, hmem, _⟩)
      · exact ⟨by omega, (hsame hb).mpr hedge⟩
      · exact ⟨by omega, by rw [length_modifyEvent]; omega, hcauses.mpr hmem⟩
    · intro ⟨hb, hedge⟩
      by_cases hbk : b = k
      · subst hbk
        have hlt := hscheduled.edge_lt hedge
        exact .inr ⟨rfl, hcauses.mp hedge.2, by omega⟩
      · exact .inl ⟨by omega, (hsame (by omega)).mp hedge⟩

/-- What holds behind the first loop. -/
theorem Scheduled.vclockLoop {s₀ : RFSCTraceBuilder Λ} (h₀ : s₀.Scheduled) {k : Nat}
    (hk : k ≤ s₀.prefixEvents.length) :
    VclockLoop s₀ k ((List.range k).foldl vclockRound
      (s₀, List.replicate s₀.prefixEvents.length [])) := by
  induction k with
  | zero =>
    refine ⟨rfl, rfl, rfl, rfl, h₀, fun _ _ _ => rfl, nofun, List.length_replicate .., ?_⟩
    intro a b
    constructor
    · intro hb
      change b ∈ (List.replicate _ _).getD a [] at hb
      rw [List.getD_eq_getElem?_getD, List.getElem?_replicate] at hb
      split at hb <;> cases hb
    · exact fun hb => absurd hb.1 (Nat.not_lt_zero b)
  | succ k ih =>
    rw [List.range_succ, List.foldl_append]
    exact (ih (Nat.le_of_succ_le hk)).step h₀ hk

/-! ## Clocks of the past -/

/-- The clock that `compute_above_clock` starts from. -/
def startClock (s : RFSCTraceBuilder Λ) (i : Nat) : VClock := s.clockOf? (s.poPredecessor i)

/-- The clocks of the past are joins of those of the causes. -/
structure Clocked (s : RFSCTraceBuilder Λ) : Prop where
  above : ∀ i < s.prefixEvents.length, (s.ev i).aboveClock =
    s.joinClocks (insert (s.startClock i) (s.ev i).iid.pid (s.ev i).iid.idx)
      (s.ev i).happensAfter
  clock : ∀ i < s.prefixEvents.length,
    (s.ev i).clock = s.joinClocks (s.ev i).aboveClock (s.readSource i)

theorem VclockLoop.clocked {s₀ : RFSCTraceBuilder Λ}
    {st : RFSCTraceBuilder Λ × List (List Nat)}
    (h : VclockLoop s₀ s₀.prefixEvents.length st) : st.1.Clocked := by
  have hdone : ∀ i < st.1.prefixEvents.length, st.1.ev i = st.1.withClock (s₀.ev i) := by
    intro i hi
    rw [h.length] at hi
    exact h.done i hi hi
  constructor
  · intro i hi
    unfold startClock
    rw [← h.scheduled.aboveLast_eq hi, hdone i hi, withClock_eq, withAboveClock_eq]
  · intro i hi
    have hsource : st.1.readSource i = sourceOf (s₀.ev i) := by
      show sourceOf (st.1.ev i) = _
      rw [hdone i hi, withClock_eq, withAboveClock_eq]
      rfl
    rw [hsource, hdone i hi, withClock_eq, withAboveClock_eq]

/-- `w` happens before `i`, without the read-from of `i`. -/
def AboveBefore (s : RFSCTraceBuilder Λ) (w i : Nat) : Prop :=
  ∃ j ∈ s.aboveCauses i, Relation.ReflTransGen s.Edge w j

theorem edge_of_mem_aboveCauses {s : RFSCTraceBuilder Λ} {i j : Nat}
    (hi : i < s.prefixEvents.length) (hj : j ∈ s.aboveCauses i) : s.Edge j i := by
  refine ⟨hi, ?_⟩
  unfold aboveCauses at hj
  unfold causes
  rw [List.append_assoc]
  exact List.mem_append_right _ hj

namespace Clocked

variable {s : RFSCTraceBuilder Λ} (hc : s.Clocked) (h : s.Scheduled) {i j w p : Nat}
include hc h

open VectorClock Relation

theorem wf (hi : i < s.prefixEvents.length) :
    Wf (s.ev i).aboveClock ∧ Wf (s.ev i).clock := by
  have hjoin : ∀ (js : List Nat) (c : VClock), Wf c → Wf (s.joinClocks c js) := by
    intro js
    induction js with
    | nil => exact fun c hwf => hwf
    | cons j js ih => exact fun c hwf => ih _ (VClock.wf_join hwf _)
  induction i using Nat.strongRecOn with
  | ind i ih =>
    have hstart : Wf (s.startClock i) := by
      unfold startClock
      cases hj : s.poPredecessor i with
      | none => exact wf_nil
      | some j =>
        have hlt := (h.poPredecessor_spec hi hj).1
        exact (ih j hlt (Nat.lt_trans hlt hi)).2
    have habove : Wf (s.ev i).aboveClock := by
      rw [hc.above i hi]
      exact hjoin _ _ (hstart.insert _ _)
    refine ⟨habove, ?_⟩
    rw [hc.clock i hi]
    exact hjoin _ _ habove

/-- The components of the clock above are the greatest of the own index and
the components of the causes. -/
theorem isGreatest_above (hi : i < s.prefixEvents.length) (p : Nat) :
    IsGreatest {k | k = VClock.get (insert (s.startClock i) (s.ev i).iid.pid
        (s.ev i).iid.idx) p ∨ ∃ j ∈ (s.ev i).happensAfter, VClock.get (s.ev j).clock p = k}
      (VClock.get (s.ev i).aboveClock p) := by
  rw [hc.above i hi]
  refine isGreatest_foldl (g := fun c => VClock.get c p)
    (v := fun j => VClock.get (s.ev j).clock p) (fun c j hj => VClock.get_join ?_ c p) _
  have hlt := h.after i hi j hj
  exact (hc.wf h (Nat.lt_trans hlt hi)).2

theorem isGreatest_clock (hi : i < s.prefixEvents.length) (p : Nat) :
    IsGreatest {k | k = VClock.get (s.ev i).aboveClock p ∨
        ∃ j ∈ s.readSource i, VClock.get (s.ev j).clock p = k}
      (VClock.get (s.ev i).clock p) := by
  rw [hc.clock i hi]
  refine isGreatest_foldl (g := fun c => VClock.get c p)
    (v := fun j => VClock.get (s.ev j).clock p) (fun c j hj => VClock.get_join ?_ c p) _
  have hedge : s.Edge j i :=
    ⟨hi, List.mem_append_left _ (List.mem_append_left _ hj)⟩
  exact (hc.wf h (Nat.lt_trans (h.edge_lt hedge) hi)).2

theorem above_cases (hi : i < s.prefixEvents.length)
    (hpos : 0 < VClock.get (s.ev i).aboveClock p) :
    (s.ev i).iid.pid = p ∧ VClock.get (s.ev i).aboveClock p = (s.ev i).iid.idx ∨
      ∃ j ∈ s.aboveCauses i, VClock.get (s.ev j).clock p = VClock.get (s.ev i).aboveClock p := by
  rcases (hc.isGreatest_above h hi p).1 with heq | ⟨j, hj, heq⟩
  · rw [VClock.get_insert] at heq
    split at heq
    · next hp => exact .inl ⟨hp, heq⟩
    · refine .inr ?_
      unfold startClock at heq
      cases hpred : s.poPredecessor i with
      | none =>
        rw [hpred] at heq
        have hzero : VClock.get [] p = 0 := rfl
        change _ = VClock.get [] p at heq
        omega
      | some j =>
        rw [hpred] at heq
        refine ⟨j, List.mem_append_right _ (Option.mem_toList.mpr hpred), heq.symm⟩
  · exact .inr ⟨j, List.mem_append_left _ hj, heq⟩

theorem clock_cases (hi : i < s.prefixEvents.length)
    (hpos : 0 < VClock.get (s.ev i).clock p) :
    (s.ev i).iid.pid = p ∧ VClock.get (s.ev i).clock p = (s.ev i).iid.idx ∨
      ∃ j, s.Edge j i ∧ VClock.get (s.ev j).clock p = VClock.get (s.ev i).clock p := by
  rcases (hc.isGreatest_clock h hi p).1 with heq | ⟨j, hj, heq⟩
  · rw [heq] at hpos ⊢
    rcases hc.above_cases h hi hpos with hown | ⟨j, hj, heq⟩
    · exact .inl hown
    · exact .inr ⟨j, edge_of_mem_aboveCauses hi hj, heq⟩
  · exact .inr ⟨j, ⟨hi, List.mem_append_left _ (List.mem_append_left _ hj)⟩, heq⟩

/-- Each component of a clock is the index of an event of the past. -/
theorem sound : Sound s.Edge (fun i => (s.ev i).iid.pid) (fun i => (s.ev i).iid.idx)
    fun i p => VClock.get (s.ev i).clock p := by
  intro i
  induction i using Nat.strongRecOn with
  | ind i ih =>
    intro p hpos
    by_cases hi : i < s.prefixEvents.length
    · rcases hc.clock_cases h hi hpos with ⟨hpid, heq⟩ | ⟨j, hedge, heq⟩
      · exact ⟨i, .refl, hpid, heq.symm⟩
      · obtain ⟨a, hpast, hpid, hidx⟩ := ih j (h.edge_lt hedge) p
          (show 0 < VClock.get (s.ev j).clock p from heq.symm ▸ hpos)
        exact ⟨a, hpast.tail hedge, hpid, hidx.trans heq⟩
    · have hnone : s.ev i = default := by
        unfold ev
        rw [List.getD_eq_getElem?_getD, List.getElem?_eq_none (by omega)]
        rfl
      change 0 < VClock.get (s.ev i).clock p at hpos
      rw [hnone] at hpos
      exact absurd hpos (Nat.lt_irrefl 0)

theorem le_above (hi : i < s.prefixEvents.length) (hj : j ∈ s.aboveCauses i) (p : Nat) :
    VClock.get (s.ev j).clock p ≤ VClock.get (s.ev i).aboveClock p := by
  have hge := (hc.isGreatest_above h hi p).2
  rcases List.mem_append.mp hj with hj | hj
  · exact hge (.inr ⟨j, hj, rfl⟩)
  · have hpred := Option.mem_toList.mp hj
    obtain ⟨hji, hpid, _⟩ := h.poPredecessor_spec hi hpred
    have hstart := hge (.inl rfl)
    rw [VClock.get_insert] at hstart
    split at hstart
    · next hp =>
      -- the own component of the predecessor is the index of an earlier event
      rcases Nat.eq_zero_or_pos (VClock.get (s.ev j).clock p) with hzero | hpos
      · omega
      · obtain ⟨a, hpast, hpida, hidx⟩ := hc.sound h j p hpos
        have haj := h.past_le hpast
        have hle := (h.idx_le_iff (show a < s.prefixEvents.length by omega) hi
          (hpida.trans hp.symm)).mpr (by omega)
        change (s.ev a).iid.idx = VClock.get (s.ev j).clock p at hidx
        omega
    · have heq : s.startClock i = (s.ev j).clock := by
        unfold startClock
        rw [hpred]
        rfl
      rwa [heq] at hstart

theorem idx_le_above (hi : i < s.prefixEvents.length) :
    (s.ev i).iid.idx ≤ VClock.get (s.ev i).aboveClock (s.ev i).iid.pid := by
  refine (hc.isGreatest_above h hi _).2 (.inl ?_)
  rw [VClock.get_insert, if_pos rfl]

theorem above_le_clock (hi : i < s.prefixEvents.length) (p : Nat) :
    VClock.get (s.ev i).aboveClock p ≤ VClock.get (s.ev i).clock p :=
  (hc.isGreatest_clock h hi p).2 (.inl rfl)

/-- The clock of an event covers those of its causes. -/
theorem covers : Above s.Edge (fun i => (s.ev i).iid.pid) (fun i => (s.ev i).iid.idx)
    (fun i p => VClock.get (s.ev i).clock p) {i | i < s.prefixEvents.length} where
  own i hi := Nat.le_trans (hc.idx_le_above h hi) (hc.above_le_clock h hi _)
  edge j i hedge p := by
    obtain ⟨hi, hmem⟩ := hedge
    unfold causes at hmem
    rw [List.append_assoc] at hmem
    rcases List.mem_append.mp hmem with hj | hj
    · exact (hc.isGreatest_clock h hi p).2 (.inr ⟨j, hj, rfl⟩)
    · exact Nat.le_trans (hc.le_above h hi hj p) (hc.above_le_clock h hi p)

/-- The clock of an event tells what happens before it. -/
theorem past_iff (hw : w < s.prefixEvents.length) (hi : i < s.prefixEvents.length) :
    ReflTransGen s.Edge w i ↔ (s.ev w).iid.idx ≤ VClock.get (s.ev i).clock (s.ev w).iid.pid := by
  obtain ⟨hpos, _⟩ := h.own w hw
  refine Above.past_iff (hc.sound h) (hc.covers h) (fun a b ha hpast hpid hidx => ?_) hw hpos
  have hb : b < s.prefixEvents.length := Nat.lt_of_le_of_lt (h.past_le hpast) hi
  exact h.line hb hpid ((h.idx_le_iff ha hb hpid).mp hidx)

/-- The clock above tells what happens before an event without its
read-from. -/
theorem above_iff (hw : w < s.prefixEvents.length) (hi : i < s.prefixEvents.length) :
    (s.ev w).iid.idx ≤ VClock.get (s.ev i).aboveClock (s.ev w).iid.pid ↔
      w = i ∨ s.AboveBefore w i := by
  obtain ⟨hpos, _⟩ := h.own w hw
  constructor
  · intro hle
    rcases hc.above_cases h hi (Nat.lt_of_lt_of_le hpos hle) with ⟨hpid, heq⟩ | ⟨j, hj, heq⟩
    · have hwi := (h.idx_le_iff hw hi hpid.symm).mp (by omega)
      rcases Nat.lt_or_eq_of_le hwi with hlt | heq
      · obtain ⟨j, hj⟩ := Option.isSome_iff_exists.mp (h.poPredecessor_isSome hi hlt hpid.symm)
        obtain ⟨hji, hpidj, hlast⟩ := h.poPredecessor_spec hi hj
        refine .inr ⟨j, List.mem_append_right _ (Option.mem_toList.mpr hj), ?_⟩
        exact h.line (Nat.lt_trans hji hi) (hpid.symm.trans hpidj.symm) (hlast w hlt hpid.symm)
      · exact .inl heq
    · have hji := h.edge_lt (edge_of_mem_aboveCauses hi hj)
      exact .inr ⟨j, hj, (hc.past_iff h hw (Nat.lt_trans hji hi)).mpr (by omega)⟩
  · rintro (rfl | ⟨j, hj, hpast⟩)
    · exact hc.idx_le_above h hi
    · have hji := h.edge_lt (edge_of_mem_aboveCauses hi hj)
      have hle := (hc.past_iff h hw (Nat.lt_trans hji hi)).mp hpast
      exact Nat.le_trans hle (hc.le_above h hi hj _)

end Clocked

/-! ## Clocks of the future -/

/-- `below_clocks[i]`. -/
def belowOf (s : RFSCTraceBuilder Λ) (i : Nat) : VClock := s.belowClocks.getD i []

/-- The minimum of a clock and the rows of some events. -/
def meetRows (below : List VClock) (c : VClock) (js : List Nat) : VClock :=
  js.foldl (fun c j => VClock.meet c (below.getD j [])) c

/-- The clocks of the future are minima of those of the effects. -/
structure BelowClocked (s : RFSCTraceBuilder Λ) (effects : List (List Nat)) : Prop where
  mem_effects : ∀ i j, j ∈ effects.getD i [] ↔ s.Edge i j
  below : ∀ i < s.prefixEvents.length, s.belowOf i =
    meetRows s.belowClocks (insert s.topClock (s.ev i).iid.pid (s.ev i).iid.idx)
      (effects.getD i [])

/-- The rows in front of round `k` of the second loop, which counts down. -/
structure BelowLoop (s : RFSCTraceBuilder Λ) (effects : List (List Nat)) (k : Nat)
    (below : List VClock) : Prop where
  length : below.length = s.prefixEvents.length
  ahead : ∀ i < k, i < s.prefixEvents.length → below.getD i [] = s.topClock
  done : ∀ i < s.prefixEvents.length, k ≤ i → below.getD i [] =
    meetRows below (insert s.topClock (s.ev i).iid.pid (s.ev i).iid.idx) (effects.getD i [])

theorem BelowLoop.step {s : RFSCTraceBuilder Λ} {effects : List (List Nat)} {k : Nat}
    {below : List VClock} (h : BelowLoop s effects (k + 1) below)
    (hlater : ∀ i, ∀ j ∈ effects.getD i [], i < j) (hk : k < s.prefixEvents.length) :
    BelowLoop s effects k (s.belowRound effects below k) := by
  have hget : ∀ i, (s.belowRound effects below k).getD i [] = if i = k then
      meetRows below (insert (below.getD k []) (s.ev k).iid.pid (s.ev k).iid.idx)
        (effects.getD k []) else below.getD i [] :=
    fun i => GetD.getD_set _ [] (h.length.symm ▸ hk)
  -- a row is computed from later ones
  have hrows : ∀ i, k ≤ i → ∀ c, meetRows (s.belowRound effects below k) c
      (effects.getD i []) = meetRows below c (effects.getD i []) := by
    intro i hle c
    unfold meetRows
    refine List.foldl_ext _ _ c fun c j hj => ?_
    have hij := hlater i j hj
    rw [hget j, if_neg (by omega)]
  constructor
  · exact (List.length_set ..).trans h.length
  · intro i hi hlt
    rw [hget i, if_neg (by omega)]
    exact h.ahead i (by omega) hlt
  · intro i hi hle
    rw [hget i, hrows i hle]
    split
    · next hki =>
      rw [hki, h.ahead k (Nat.lt_succ_self k) hk]
    · exact h.done i hi (by omega)

theorem BelowLoop.run {s : RFSCTraceBuilder Λ} {effects : List (List Nat)} {k : Nat}
    {below : List VClock} (h : BelowLoop s effects k below)
    (hlater : ∀ i, ∀ j ∈ effects.getD i [], i < j) (hk : k ≤ s.prefixEvents.length) :
    BelowLoop s effects 0 ((List.range k).reverse.foldl (s.belowRound effects) below) := by
  induction k generalizing below with
  | zero => exact h
  | succ k ih =>
    rw [List.range_succ, List.reverse_append]
    exact ih (h.step hlater hk) (Nat.le_of_succ_le hk)

theorem get_map_range (n : Nat) (f : Nat → Nat) (q : Nat) :
    VClock.get ((List.range n).map fun p => (p, f p)) q = if q < n then f q else 0 := by
  have hlist : ∀ l : List Nat,
      VClock.get (l.map fun p => (p, f p)) q = if q ∈ l then f q else 0 := by
    intro l
    induction l with
    | nil => rfl
    | cons p l ih =>
      show (if p = q then some (f p) else find? (l.map fun p => (p, f p)) q).getD 0 = _
      by_cases hp : p = q
      · subst hp
        simp
      · rw [if_neg hp]
        change VClock.get (l.map fun p => (p, f p)) q = _
        rw [ih]
        simp [Ne.symm hp]
  simp only [hlist, List.mem_range]

theorem get_topClock (s : RFSCTraceBuilder Λ) (p : Nat) :
    VClock.get s.topClock p = (s.indicesOf p).length := by
  unfold topClock
  rw [get_map_range]
  split
  · rfl
  · unfold indicesOf
    rw [List.getD_eq_getElem?_getD, List.getElem?_eq_none (by omega)]
    rfl

namespace BelowClocked

variable {s : RFSCTraceBuilder Λ} {effects : List (List Nat)} (hb : s.BelowClocked effects)
  (h : s.Scheduled) {i j w p : Nat}
include hb h

open VectorClock Relation

omit h in
theorem isLeast_below (hi : i < s.prefixEvents.length) (p : Nat) :
    IsLeast {k | k = VClock.get (insert s.topClock (s.ev i).iid.pid (s.ev i).iid.idx) p ∨
      ∃ j ∈ effects.getD i [], VClock.get (s.belowOf j) p = k}
      (VClock.get (s.belowOf i) p) := by
  rw [hb.below i hi]
  exact isLeast_foldl (g := fun c => VClock.get c p) (v := fun j => VClock.get (s.belowOf j) p)
    (fun c j _ => VClock.get_meet c _ p) _

omit hb h in
theorem start_cases (i p : Nat) :
    (s.ev i).iid.pid = p ∧ VClock.get (insert s.topClock (s.ev i).iid.pid (s.ev i).iid.idx) p =
        (s.ev i).iid.idx ∨
      VClock.get (insert s.topClock (s.ev i).iid.pid (s.ev i).iid.idx) p =
        (s.indicesOf p).length := by
  rw [VClock.get_insert]
  split
  · next hp => exact .inl ⟨hp, rfl⟩
  · exact .inr (s.get_topClock p)

/-- Each component is the index of an event of the future, or the top. -/
theorem reached : Reached s.Edge (fun i => (s.ev i).iid.pid) (fun i => (s.ev i).iid.idx)
    (fun i p => VClock.get (s.belowOf i) p) (fun p => (s.indicesOf p).length)
    {i | i < s.prefixEvents.length} := by
  intro i hi p
  generalize hm : s.prefixEvents.length - i = m
  induction m using Nat.strongRecOn generalizing i with
  | ind m ih =>
    rcases (hb.isLeast_below hi p).1 with heq | ⟨j, hj, heq⟩
    · rcases start_cases (s := s) i p with ⟨hpid, hidx⟩ | htop
      · exact .inr ⟨i, .refl, hpid, (heq.trans hidx).symm⟩
      · exact .inl (heq.trans htop)
    · have hedge := (hb.mem_effects i j).mp hj
      have hij := h.edge_lt hedge
      have hlt : j < s.prefixEvents.length := hedge.1
      change i < s.prefixEvents.length at hi
      rcases ih (s.prefixEvents.length - j) (by omega) j hlt rfl with htop | ⟨a, hja, hpid, hidx⟩
      · exact .inl (heq.symm.trans htop)
      · exact .inr ⟨a, .head hedge hja, hpid, hidx.trans heq⟩

/-- The row of an event is below the event, the rows of its effects and the
top. -/
theorem under : Under s.Edge (fun i => (s.ev i).iid.pid) (fun i => (s.ev i).iid.idx)
    (fun i p => VClock.get (s.belowOf i) p) (fun p => (s.indicesOf p).length)
    {i | i < s.prefixEvents.length} where
  own i hi := by
    refine (hb.isLeast_below hi _).2 (.inl ?_)
    rw [VClock.get_insert, if_pos rfl]
  edge i j hedge p := by
    have hi := Nat.lt_trans (h.edge_lt hedge) hedge.1
    exact (hb.isLeast_below hi p).2 (.inr ⟨j, (hb.mem_effects i j).mpr hedge, rfl⟩)
  top i hi p := by
    have hle := (hb.isLeast_below hi p).2 (.inl rfl)
    rcases start_cases (s := s) i p with ⟨hpid, hidx⟩ | htop
    · have hown := h.idx_le hi
      rw [hpid] at hown
      show VClock.get (s.belowOf i) p ≤ (s.indicesOf p).length
      omega
    · exact Nat.le_trans hle (Nat.le_of_eq htop)

omit hb h in
theorem lt_of_future (hi : i < s.prefixEvents.length) (hfuture : ReflTransGen s.Edge i w) :
    w < s.prefixEvents.length := by
  rcases ReflTransGen.cases_tail hfuture with heq | ⟨_, _, hedge⟩
  · exact heq ▸ hi
  · exact hedge.1

/-- What the row of an event tells about its future: an event at or past it
happens after, or starts with the last instruction of its thread. -/
theorem future_iff (hi : i < s.prefixEvents.length) (hw : w < s.prefixEvents.length) :
    VClock.get (s.belowOf i) (s.ev w).iid.pid ≤ (s.ev w).iid.idx ↔
      ReflTransGen s.Edge i w ∨ (s.ev w).iid.idx = (s.indicesOf (s.ev w).iid.pid).length := by
  refine Under.future_iff (hb.reached h) (hb.under h) hi hw (h.idx_le hw) fun b hib hpid hidx => ?_
  have hlt := lt_of_future hi hib
  exact h.line hw hpid ((h.idx_le_iff hlt hw hpid).mp hidx)

end BelowClocked

/-! ## Behind `compute_vclocks` -/

/-- Behind `compute_vclocks` the trace has its clocks. -/
theorem Scheduled.computeVclocks {s : RFSCTraceBuilder Λ} (h : s.Scheduled) :
    s.computeVclocks.Scheduled ∧ s.computeVclocks.Clocked ∧
      ∃ effects, s.computeVclocks.BelowClocked effects := by
  have hloop := h.vclockLoop (Nat.le_refl _)
  unfold RFSCTraceBuilder.computeVclocks
  dsimp only
  generalize (List.range s.prefixEvents.length).foldl vclockRound
    (s, List.replicate s.prefixEvents.length []) = st at hloop
  obtain ⟨t, effects⟩ := st
  have hlen : t.prefixEvents.length = s.prefixEvents.length := hloop.length
  have heffects : ∀ i j, j ∈ effects.getD i [] ↔ t.Edge i j := by
    intro i j
    refine (hloop.effects i j).trans ⟨fun hj => hj.2, fun hedge => ⟨?_, hedge⟩⟩
    exact hlen ▸ hedge.1
  have hstart : BelowLoop t effects s.prefixEvents.length
      (List.replicate s.prefixEvents.length t.topClock) := by
    refine ⟨(List.length_replicate ..).trans hlen.symm, fun i hi _ => ?_, fun i hi hle => ?_⟩
    · rw [List.getD_eq_getElem?_getD, List.getElem?_replicate, if_pos hi]
      rfl
    · omega
  have hbelow := hstart.run (fun i j hj => hloop.scheduled.edge_lt ((heffects i j).mp hj))
    (Nat.le_of_eq hlen.symm)
  refine ⟨⟨hloop.scheduled.own, hloop.scheduled.indices, hloop.scheduled.sorted,
    hloop.scheduled.after, hloop.scheduled.spawned, hloop.scheduled.reads,
    hloop.scheduled.ended⟩, ⟨hloop.clocked.above, hloop.clocked.clock⟩, effects, heffects, ?_⟩
  exact fun i hi => hbelow.done i hi (Nat.zero_le i)

end RFSCTraceBuilder

end ViEqui.Rfsc
