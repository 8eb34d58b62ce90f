import ViEqui.ForcedOrder
import ViEqui.GraphEdges

/-!
# The graph that `add_event` builds

A sequence of calls on an empty graph, the trace that it says, and the graph
that results.

* `Call`, `Legal`: the calls, and the contract of `add_event`.
* `trace`: the calls with the identifiers replaced by positions.
* `Built`: the tables of the graph as functions of the trace.
* `Inserted`: what one more event does to the edges, the clocks and the queue.
* `Built.addEvent`: one legal call.
-/

namespace ViEqui.Saturation

open AssocMap VectorClock
open Rfsc (SymAddr)

/-! ## Calls -/

/-- The arguments of `add_event`. -/
structure Call where
  pid : Nat
  extId : IID
  kind : EventKind
  addr : SymAddr
  readFrom : Option IID
  happensAfter : List IID
deriving DecidableEq, Repr

/-- The contract of `add_event`: an identifier names one event, every event
that is referred to was added before, and only a load reads, from a store to
its address. -/
inductive Legal : List Call → Prop
  | nil : Legal []
  | concat {calls : List Call} {c : Call} : Legal calls →
      (∀ b ∈ calls, b.extId ≠ c.extId) →
      (∀ x, c.readFrom = some x → c.kind.isLoad ∧
        ∃ w ∈ calls, w.extId = x ∧ w.kind.isStore ∧ w.addr = c.addr) →
      (∀ x ∈ c.happensAfter, ∃ a ∈ calls, a.extId = x) →
      Legal (calls ++ [c])

/-- A sequence of `add_event` calls. -/
def addEvents (σ : MapOrder) (g : SaturatedGraph) (calls : List Call) :
    Option SaturatedGraph :=
  calls.foldlM
    (fun g c => g.addEvent σ c.pid c.extId c.kind c.addr c.readFrom c.happensAfter) g

/-- The position of the call with an identifier. -/
def position (calls : List Call) (x : IID) : Nat := calls.findIdx (·.extId = x)

/-- A call after `calls`, with positions for identifiers. -/
def Call.access (calls : List Call) (c : Call) : Access where
  pid := c.pid
  extId := c.extId
  isLoad := c.kind.isLoad
  isStore := c.kind.isStore
  addr := c.addr
  readFrom := c.readFrom.map (position calls)
  happensAfter := c.happensAfter.map (position calls)

def trace (calls : List Call) : Trace := calls.map (Call.access calls)

@[simp] theorem length_trace (calls : List Call) : (trace calls).length = calls.length :=
  List.length_map _

theorem position_append {calls more : List Call} {x : IID}
    (h : ∃ a ∈ calls, a.extId = x) : position (calls ++ more) x = position calls x := by
  obtain ⟨a, ha, hx⟩ := h
  unfold position
  rw [List.findIdx_append, if_pos]
  exact List.findIdx_lt_length_of_exists ⟨a, ha, by simpa using hx⟩

theorem position_lt {calls : List Call} {x : IID} (h : ∃ a ∈ calls, a.extId = x) :
    position calls x < calls.length := by
  obtain ⟨a, ha, hx⟩ := h
  exact List.findIdx_lt_length_of_exists ⟨a, ha, by simpa using hx⟩

/-- A call whose references are among `calls`. -/
theorem Call.access_append {calls more : List Call} {c : Call}
    (hread : ∀ x, c.readFrom = some x → ∃ a ∈ calls, a.extId = x)
    (hafter : ∀ x ∈ c.happensAfter, ∃ a ∈ calls, a.extId = x) :
    c.access (calls ++ more) = c.access calls := by
  unfold Call.access
  congr 1
  · cases hx : c.readFrom with
    | none => rfl
    | some x => simp [position_append (hread x hx)]
  · exact List.map_congr_left fun x hx => position_append (hafter x hx)

theorem Legal.of_concat {calls : List Call} {c : Call} (h : Legal (calls ++ [c])) :
    Legal calls ∧ (∀ b ∈ calls, b.extId ≠ c.extId) ∧
      (∀ x, c.readFrom = some x → c.kind.isLoad ∧
        ∃ w ∈ calls, w.extId = x ∧ w.kind.isStore ∧ w.addr = c.addr) ∧
      ∀ x ∈ c.happensAfter, ∃ a ∈ calls, a.extId = x := by
  generalize heq : calls ++ [c] = l at h
  cases h with
  | nil => simp at heq
  | concat hcalls hnew hread hafter =>
    obtain ⟨rfl, hc⟩ := List.append_inj' heq rfl
    obtain rfl := List.singleton_inj.mp hc
    exact ⟨hcalls, hnew, hread, hafter⟩

theorem Legal.refers {calls : List Call} (h : Legal calls) {c : Call} (hc : c ∈ calls) :
    (∀ x, c.readFrom = some x → ∃ a ∈ calls, a.extId = x) ∧
      ∀ x ∈ c.happensAfter, ∃ a ∈ calls, a.extId = x := by
  induction h with
  | nil => cases hc
  | @concat calls d _ _ hread hafter ih =>
    have hmem : ∀ x, (∃ a ∈ calls, a.extId = x) → ∃ a ∈ calls ++ [d], a.extId = x := by
      rintro x ⟨a, ha, hx⟩
      exact ⟨a, List.mem_append_left _ ha, hx⟩
    rcases List.mem_append.mp hc with hc | hc
    · exact ⟨fun x hx => hmem x ((ih hc).1 x hx), fun x hx => hmem x ((ih hc).2 x hx)⟩
    · obtain rfl := List.mem_singleton.mp hc
      refine ⟨fun x hx => hmem x ?_, fun x hx => hmem x (hafter x hx)⟩
      obtain ⟨-, w, hw, hwx, -⟩ := hread x hx
      exact ⟨w, hw, hwx⟩

theorem trace_concat {calls : List Call} {c : Call} (hcalls : Legal calls)
    (hread : ∀ x, c.readFrom = some x → ∃ a ∈ calls, a.extId = x)
    (hafter : ∀ x ∈ c.happensAfter, ∃ a ∈ calls, a.extId = x) :
    trace (calls ++ [c]) = trace calls ++ [c.access calls] := by
  unfold trace
  rw [List.map_append, List.map_singleton, Call.access_append hread hafter]
  congr 1
  exact List.map_congr_left fun b hb =>
    Call.access_append (hcalls.refers hb).1 (hcalls.refers hb).2

/-! ## The initial edges -/

namespace Trace

/-- `e` is the first store of its process to its address. -/
def FirstStore (T : Trace) (e : Nat) : Prop :=
  (T.writes (T.acc e).pid (T.acc e).addr).head? = some e

/-- `a` is a load of the initial value and `e` a first store to its address. -/
def InitEdge (T : Trace) (a e : Nat) : Prop :=
  a ∈ T.initReads (T.acc e).addr ∧ T.FirstStore e ∧ a ≠ e

/-- The edges that are recorded before the first saturation. -/
def InitialEdge (T : Trace) (a e : Nat) : Prop :=
  a ∈ (T.acc e).happensAfter ∨ T.InitEdge a e

variable {T : Trace}

theorem FirstStore.mem {e : Nat} (h : T.FirstStore e) :
    e ∈ T.writes (T.acc e).pid (T.acc e).addr :=
  List.mem_of_head? h

theorem FirstStore.isStore {e : Nat} (h : T.FirstStore e) : (T.acc e).isStore :=
  (mem_writes.mp h.mem).1

theorem InitialEdge.lt_length {a e : Nat} (hT : T.Wf) (h : T.InitialEdge a e) :
    a < T.length ∧ e < T.length := by
  rcases h with h | ⟨ha, hfirst, -⟩
  · have he := lt_length_of_after h
    exact ⟨Nat.lt_trans (hT.lt_of_after e a h) he, he⟩
  · exact ⟨lt_length_of_isLoad (mem_initReads.mp ha).1, lt_length_of_isStore hfirst.isStore⟩

/-- Each store has a first store of its process at or before it. -/
theorem exists_firstStore {s : Nat} (hs : (T.acc s).isStore) :
    ∃ f, T.FirstStore f ∧ (T.acc f).addr = (T.acc s).addr ∧
      (f = s ∨ T.ProgramOrder f s) := by
  have hmem : s ∈ T.writes (T.acc s).pid (T.acc s).addr := mem_writes.mpr ⟨hs, rfl, rfl⟩
  obtain ⟨f, rest, hlist⟩ := List.exists_cons_of_ne_nil (List.ne_nil_of_mem hmem)
  have hf := mem_writes.mp (hlist ▸ List.mem_cons_self : f ∈ T.writes _ _)
  refine ⟨f, ?_, hf.2.2, ?_⟩
  · unfold FirstStore
    rw [hf.2.1, hf.2.2, hlist]
    rfl
  · rw [hlist] at hmem
    rcases List.mem_cons.mp hmem with h | h
    · exact .inl h.symm
    · have hsorted : (f :: rest).Pairwise (· < ·) := by
        rw [← hlist]
        exact T.select_sorted _
      exact .inr ⟨(List.pairwise_cons.mp hsorted).1 s h, lt_length_of_isStore hs, hf.2.1⟩

theorem head?_writes {a : SymAddr} {e : Nat} :
    (∃ p, (T.writes p a).head? = some e) ↔ T.FirstStore e ∧ (T.acc e).addr = a := by
  constructor
  · rintro ⟨p, hp⟩
    have he := mem_writes.mp (List.mem_of_head? hp)
    refine ⟨?_, he.2.2⟩
    unfold FirstStore
    rw [he.2.1, he.2.2]
    exact hp
  · rintro ⟨hfirst, rfl⟩
    exact ⟨_, hfirst⟩

theorem FirstStore.lt_length {e : Nat} (h : T.FirstStore e) : e < T.length :=
  lt_length_of_isStore h.isStore

theorem lt_length_of_mem_initReads {r : Nat} {a : SymAddr} (h : r ∈ T.initReads a) :
    r < T.length :=
  lt_length_of_isLoad (mem_initReads.mp h).1

theorem InitialEdge.dst_lt {a e : Nat} (h : T.InitialEdge a e) : e < T.length := by
  rcases h with h | ⟨-, hfirst, -⟩
  · exact lt_length_of_after h
  · exact hfirst.lt_length

theorem firstStore_concat_of_lt (c : Access) {e : Nat} (he : e < T.length) :
    Trace.FirstStore (T ++ [c]) e ↔ T.FirstStore e := by
  unfold FirstStore
  rw [acc_concat_of_lt c he, writes_concat]
  cases hw : T.writes (T.acc e).pid (T.acc e).addr with
  | nil =>
    split
    · simp only [List.nil_append, List.head?_cons, List.head?_nil, Option.some.injEq,
        reduceCtorEq, iff_false]
      omega
    · simp
  | cons f rest => simp

theorem firstStore_concat_length (T : Trace) (c : Access) :
    Trace.FirstStore (T ++ [c]) T.length ↔ c.isStore ∧ T.writes c.pid c.addr = [] := by
  unfold FirstStore
  rw [acc_concat_length, writes_concat]
  simp only [and_true]
  cases hw : T.writes c.pid c.addr with
  | nil => cases c.isStore <;> simp
  | cons f rest =>
    have hf := mem_writes.mp (hw ▸ List.mem_cons_self : f ∈ T.writes _ _)
    have hlt := lt_length_of_isStore hf.1
    simp only [List.cons_append, List.head?_cons, Option.some.injEq, reduceCtorEq, and_false,
      iff_false]
    omega

/-- The edges of one more event to the earlier ones. -/
theorem initialEdge_concat_of_lt (c : Access) {a e : Nat} (he : e < T.length) :
    Trace.InitialEdge (T ++ [c]) a e ↔
      T.InitialEdge a e ∨ (c.isLoad ∧ c.readFrom = none ∧ a = T.length ∧
        T.FirstStore e ∧ (T.acc e).addr = c.addr) := by
  unfold InitialEdge InitEdge
  rw [firstStore_concat_of_lt c he, acc_concat_of_lt c he, initReads_concat, List.mem_append,
    List.mem_ite_nil_right, List.mem_singleton]
  constructor
  · rintro (h | ⟨h | ⟨⟨hload, hread, haddr⟩, ha⟩, hfirst, hne⟩)
    · exact .inl (.inl h)
    · exact .inl (.inr ⟨h, hfirst, hne⟩)
    · exact .inr ⟨hload, hread, ha, hfirst, haddr.symm⟩
  · rintro ((h | ⟨h, hfirst, hne⟩) | ⟨hload, hread, ha, hfirst, haddr⟩)
    · exact .inl h
    · exact .inr ⟨.inl h, hfirst, hne⟩
    · exact .inr ⟨.inr ⟨⟨hload, hread, haddr.symm⟩, ha⟩, hfirst, by omega⟩

/-- The edges of the earlier events to one more event. -/
theorem initialEdge_concat_length (T : Trace) (c : Access) (a : Nat) :
    Trace.InitialEdge (T ++ [c]) a T.length ↔
      a ∈ c.happensAfter ∨
        (c.isStore ∧ T.writes c.pid c.addr = [] ∧ a ∈ T.initReads c.addr) := by
  unfold InitialEdge InitEdge
  rw [firstStore_concat_length, acc_concat_length, initReads_concat, List.mem_append,
    List.mem_ite_nil_right, List.mem_singleton]
  constructor
  · rintro (h | ⟨h | ⟨-, ha⟩, hfirst, hne⟩)
    · exact .inl h
    · exact .inr ⟨hfirst.1, hfirst.2, h⟩
    · exact absurd ha hne
  · rintro (h | ⟨hstore, hw, h⟩)
    · exact .inl h
    · have hlt := lt_length_of_mem_initReads h
      exact .inr ⟨.inl h, ⟨hstore, hw⟩, by omega⟩

/-- The initial edges that one more event brings. -/
theorem initialEdge_concat (T : Trace) (c : Access) (a e : Nat) :
    Trace.InitialEdge (T ++ [c]) a e ↔
      T.InitialEdge a e ∨ (e = T.length ∧ a ∈ c.happensAfter) ∨
        (c.isLoad ∧ c.readFrom = none ∧ a = T.length ∧
          ∃ p, (T.writes p c.addr).head? = some e) ∨
        (c.isStore ∧ T.writes c.pid c.addr = [] ∧ e = T.length ∧ a ∈ T.initReads c.addr) := by
  rw [head?_writes]
  rcases Nat.lt_trichotomy e T.length with he | rfl | he
  · rw [initialEdge_concat_of_lt c he]
    have hne : e ≠ T.length := Nat.ne_of_lt he
    simp only [hne, false_and, and_false, false_or, or_false]
  · rw [initialEdge_concat_length]
    have hold : ¬ T.InitialEdge a T.length := fun h => Nat.lt_irrefl _ h.dst_lt
    have hfirst : ¬ T.FirstStore T.length := fun h => Nat.lt_irrefl _ h.lt_length
    simp only [hold, hfirst, false_and, and_false, true_and, false_or]
  · have hnew : ¬ Trace.InitialEdge (T ++ [c]) a e := fun h => by
      have := h.dst_lt
      rw [List.length_append, List.length_singleton] at this
      omega
    have hold : ¬ T.InitialEdge a e := fun h => by
      have := h.dst_lt
      omega
    have hfirst : ¬ T.FirstStore e := fun h => by
      have := h.lt_length
      omega
    have hne : e ≠ T.length := by omega
    simp only [hnew, hold, hfirst, hne, false_and, and_false, or_self]

end Trace

/-! ## The fields of the graph -/

/-- The event that the graph stores at the position `e`. -/
def Trace.eventOf (T : Trace) (e : Nat) : Event where
  pid := (T.acc e).pid
  index := T.index e
  extId := (T.acc e).extId
  isLoad := (T.acc e).isLoad
  isStore := (T.acc e).isStore
  addr := (T.acc e).addr
  readFrom := (T.acc e).readFrom
  readers := T.readers e
  poPredecessor := T.poPredecessor e

/-- The fields that `saturate` reads and does not change. -/
structure Tables (T : Trace) (g : SaturatedGraph) : Prop where
  events : g.events = (List.range T.length).map T.eventOf
  threads : ∀ p, g.threadOf p = T.thread p
  writes : ∀ p a, g.writesOf p a = T.writes p a

/-- The fields of the graph that `add_event` reads. -/
structure Built (T : Trace) (g : SaturatedGraph) : Prop extends Tables T g where
  ids : ∀ i < T.length, find? g.extidToId (T.acc i).extId = some i
  firstWrites_wf : ∀ a, Wf (getD g.writesByAddress a [])
  firstWrites : ∀ a p, find? (getD g.writesByAddress a []) p = (T.writes p a).head?
  initReads : ∀ a, getD g.readsFromInit a [] = T.initReads a
  slots : g.Slots T.length

theorem Tables.length_events {T : Trace} {g : SaturatedGraph} (h : Tables T g) :
    g.events.length = T.length := by
  rw [h.events, List.length_map, List.length_range]

theorem Tables.ev {T : Trace} {g : SaturatedGraph} (h : Tables T g) {e : Nat}
    (he : e < T.length) : g.ev e = T.eventOf e := by
  unfold SaturatedGraph.ev
  rw [h.events, List.getD_eq_getElem?_getD, List.getElem?_map, List.getElem?_range he]
  rfl

theorem built_empty : Built [] {} where
  events := rfl
  threads _ := rfl
  writes _ _ := rfl
  ids _ h := absurd h (Nat.not_lt_zero _)
  firstWrites_wf _ := List.nodup_nil
  firstWrites _ _ := rfl
  initReads _ := rfl
  slots := ⟨rfl, rfl, List.nodup_nil, fun x => by simp [SaturatedGraph.queued]⟩

/-! ## The parts of `add_event` -/

theorem getD_concat {α : Type} (v : List α) (x d : α) (i : Nat) :
    (v ++ [x]).getD i d = if i = v.length then x else v.getD i d := by
  rw [List.getD_eq_getElem?_getD, List.getD_eq_getElem?_getD, List.getElem?_append]
  rcases Nat.lt_trichotomy i v.length with h | rfl | h
  · rw [if_pos h, if_neg (Nat.ne_of_lt h)]
  · simp
  · rw [if_neg (by omega), if_neg (by omega), List.getElem?_eq_none (by simp; omega),
      List.getElem?_eq_none (by omega)]

namespace SaturatedGraph

variable {n : Nat} {g : SaturatedGraph}

theorem slots_appendSlots (h : g.Slots n) (pid : Nat) (extid : IID) (after : List Nat) :
    (g.appendSlots pid extid after).Slots (n + 1) where
  ins := by
    show (g.ins ++ [after]).length = n + 1
    rw [List.length_append, h.ins, List.length_singleton]
  outs := by
    unfold appendSlots
    simp only [List.length_append, List.length_singleton]
    split
    · rw [length_pushAt, h.outs]
    · rw [h.outs]
  queue := h.queue.congr rfl rfl

theorem mem_inOf_appendSlots (h : g.Slots n) (pid : Nat) (extid : IID) (after : List Nat)
    (a e : Nat) :
    a ∈ (g.appendSlots pid extid after).inOf e ↔ a ∈ g.inOf e ∨ (e = n ∧ a ∈ after) := by
  show a ∈ (g.ins ++ [after]).getD e [] ↔ _
  rw [getD_concat, h.ins]
  split
  · next he =>
    subst he
    have hnone : g.inOf e = [] := by
      unfold inOf
      rw [List.getD_eq_getElem?_getD, List.getElem?_eq_none (Nat.le_of_eq h.ins)]
      rfl
    simp [hnone]
  · next he =>
    simp [he, inOf]

theorem mem_outOf_appendSlots (h : g.Slots n) (hlen : g.events.length = n) (pid : Nat)
    (extid : IID) (after : List Nat) (hlast : ∀ p ∈ g.threadOf pid, p < n) (a e : Nat) :
    e ∈ (g.appendSlots pid extid after).outOf a ↔
      e ∈ g.outOf a ∨ (e = n ∧ (g.threadOf pid).getLast? = some a) := by
  have hthread : (enlarge g.eventsByPid (pid + 1) []).getD pid [] = g.threadOf pid := by
    rw [getD_enlarge]
    rfl
  have hnone : g.outs.getD n [] = [] := by
    rw [List.getD_eq_getElem?_getD, List.getElem?_eq_none (Nat.le_of_eq h.outs)]
    rfl
  unfold outOf appendSlots
  simp only [hthread, hlen]
  rw [getD_concat]
  cases hp : (g.threadOf pid).getLast? with
  | none =>
    simp only [h.outs, reduceCtorEq, and_false, or_false]
    split
    · next ha =>
      rw [ha, hnone]
    · rfl
  | some p =>
    have hpn : p < n := hlast p (List.mem_of_getLast? hp)
    simp only [length_pushAt, h.outs, Option.some.injEq]
    split
    · next ha =>
      subst ha
      simp only [List.not_mem_nil, hnone, false_or, false_iff]
      omega
    · rw [getD_pushAt _ _ (h.outs ▸ hpn), List.mem_append, List.mem_ite_nil_right,
        List.mem_singleton]
      exact or_congr Iff.rfl ⟨fun ⟨ha, he⟩ => ⟨he, ha.symm⟩, fun ⟨he, ha⟩ => ⟨ha.symm, he⟩⟩

theorem threadOf_appendSlots (pid : Nat) (extid : IID) (after : List Nat) (p : Nat) :
    (g.appendSlots pid extid after).threadOf p =
      g.threadOf p ++ if pid = p then [g.events.length] else [] := by
  show (pushAt (enlarge g.eventsByPid (pid + 1) []) pid g.events.length).getD p [] = _
  rw [getD_pushAt _ _ (by rw [length_enlarge]; omega), getD_enlarge]
  by_cases hp : p = pid
  · subst hp
    rfl
  · rw [if_neg hp, if_neg (Ne.symm hp)]
    rfl

/-- A load of the initial value changes no event. -/
theorem events_addRead_none (σ : MapOrder) (g : SaturatedGraph) (id : Nat) (isLoad : Bool)
    (addr : SymAddr) : (g.addRead σ id isLoad addr none).events = g.events := by
  have hadd : ∀ (g : SaturatedGraph) (src dst : Nat),
      (g.addEdgeInternal src dst).events = g.events := by
    intro g src dst
    unfold addEdgeInternal wqAdd
    split <;> rfl
  show (if isLoad then g.initReadEdges σ id addr else g).events = g.events
  split
  · unfold initReadEdges
    generalize σ.order (getD g.writesByAddress addr []) = l
    induction l generalizing g with
    | nil => rfl
    | cons p l ih => exact (ih _).trans (hadd g id p.2)
  · rfl

/-- The edges of a load of the initial value. -/
theorem grows_addRead (σ : MapOrder) (h : g.Slots n) {id : Nat} (hid : id < n) (isLoad : Bool)
    (addr : SymAddr) (readFrom : Option Nat) (hwf : Wf (getD g.writesByAddress addr []))
    (hlt : ∀ p w, find? (getD g.writesByAddress addr []) p = some w → w < n) :
    Grows n { g with events := (g.addRead σ id isLoad addr readFrom).events }
      (g.addRead σ id isLoad addr readFrom)
      (fun a e => isLoad ∧ readFrom = none ∧ a = id ∧
        ∃ p, find? (getD g.writesByAddress addr []) p = some e)
      (fun a e => isLoad ∧ readFrom = none ∧ a = id ∧
        ∃ p, find? (getD g.writesByAddress addr []) p = some e)
      (fun x => isLoad ∧ readFrom = none ∧
        ∃ p, find? (getD g.writesByAddress addr []) p = some x) := by
  unfold addRead
  cases readFrom with
  | some w =>
    have hslots : (g.addReader w id).Slots n := ⟨h.ins, h.outs, h.queue.congr rfl rfl⟩
    exact (Grows.refl hslots).congr (by simp) (by simp) (by simp)
  | none =>
    cases isLoad with
    | false => exact (Grows.refl h).congr (by simp) (by simp) (by simp)
    | true =>
      have hmem : ∀ p ∈ σ.order (getD g.writesByAddress addr []),
          find? (getD g.writesByAddress addr []) p.1 = some p.2 := fun p hp =>
        hwf.find?_eq_some_iff.mpr ((σ.perm _).mem_iff.mp hp)
      have hfold := Grows.foldl (f := fun g p => g.addEdgeInternal id p.2)
        (σ.order (getD g.writesByAddress addr []))
        (fun p hp g hg => grows_addEdgeInternal hg hid (hlt _ _ (hmem p hp))) h
      have hevents : (g.initReadEdges σ id addr).events = g.events := hfold.events_eq
      have hex : ∀ e, (∃ p ∈ σ.order (getD g.writesByAddress addr []), e = p.2) ↔
          ∃ p, find? (getD g.writesByAddress addr []) p = some e := by
        intro e
        constructor
        · rintro ⟨p, hp, rfl⟩
          exact ⟨p.1, hmem p hp⟩
        · rintro ⟨p, hp⟩
          exact ⟨(p, e), (σ.perm _).mem_iff.mpr (hwf.find?_eq_some_iff.mp hp), rfl⟩
      show Grows n { g with events := (g.initReadEdges σ id addr).events }
        (g.initReadEdges σ id addr) _ _ _
      rw [hevents]
      refine hfold.congr ?_ ?_ ?_
      · intro a e
        rw [← hex]
        simp only [true_and]
        constructor
        · rintro ⟨p, hp, ha, he⟩
          exact ⟨ha, p, hp, he⟩
        · rintro ⟨ha, p, hp, he⟩
          exact ⟨p, hp, ha, he⟩
      · intro a e
        rw [← hex]
        simp only [true_and]
        constructor
        · rintro ⟨p, hp, ha, he⟩
          exact ⟨ha, p, hp, he⟩
        · rintro ⟨ha, p, hp, he⟩
          exact ⟨p, hp, ha, he⟩
      · intro x
        rw [← hex]
        simp

theorem rest_firstStoreEdges (g : SaturatedGraph) (id : Nat) (addr : SymAddr) :
    (g.firstStoreEdges id addr).rest = g.rest := by
  unfold firstStoreEdges
  generalize getD g.readsFromInit addr [] = l
  induction l generalizing g with
  | nil => rfl
  | cons r l ih => exact ih (g.recordEdge r id)

/-- The table of all stores after `add_event`. -/
theorem writesByProcessAndAddress_addStore (g : SaturatedGraph) (pid id : Nat)
    (addr : SymAddr) :
    (g.addStore pid id addr).writesByProcessAndAddress =
      g.writesByProcessAndAddress.modify pid fun m => modify m addr [] (· ++ [id]) := by
  have heq := congrArg writesByProcessAndAddress (rest_firstStoreEdges g id addr)
  unfold addStore
  split
  · rfl
  · exact congrArg (List.modify · pid fun m => modify m addr [] (· ++ [id])) heq

/-- The table of first stores after `add_event`. -/
theorem writesByAddress_addStore (g : SaturatedGraph) (pid id : Nat) (addr : SymAddr) :
    (g.addStore pid id addr).writesByAddress =
      if contains (getD g.writesByAddress addr []) pid then g.writesByAddress
      else modify g.writesByAddress addr [] fun m => AssocMap.insert m pid id := by
  unfold addStore
  split <;> rfl

/-- The edges of the first store of a process. -/
theorem grows_addStore (h : g.Slots n) {id : Nat} (hid : id < n) (pid : Nat) (addr : SymAddr)
    (hlt : ∀ r ∈ getD g.readsFromInit addr [], r < n) :
    Grows n
      { g with
        writesByAddress := (g.addStore pid id addr).writesByAddress
        writesByProcessAndAddress := (g.addStore pid id addr).writesByProcessAndAddress }
      (g.addStore pid id addr)
      (fun a e => find? (getD g.writesByAddress addr []) pid = none ∧ e = id ∧
        a ∈ getD g.readsFromInit addr [])
      (fun a e => find? (getD g.writesByAddress addr []) pid = none ∧ e = id ∧
        a ∈ getD g.readsFromInit addr [])
      fun _ => False := by
  have hnone : ∀ b, find? (getD g.writesByAddress addr []) pid = some b →
      contains (getD g.writesByAddress addr []) pid = true := by
    intro b hb
    rw [contains, hb]
    rfl
  unfold addStore
  cases hfind : find? (getD g.writesByAddress addr []) pid with
  | some b =>
    simp only [hnone b hfind, if_true]
    have hslots : ({ g with
        writesByProcessAndAddress :=
          g.writesByProcessAndAddress.modify pid fun m => modify m addr [] (· ++ [id]) } :
        SaturatedGraph).Slots n := ⟨h.ins, h.outs, h.queue.congr rfl rfl⟩
    exact (Grows.refl hslots).congr (by simp) (by simp) (by simp)
  | none =>
    have hnot : contains (getD g.writesByAddress addr []) pid = false := by
      rw [contains, hfind]
      rfl
    simp only [hnot, Bool.false_eq_true, if_false]
    have hfold := grows_foldl_recordEdge h hid hlt
    exact {
      rest_eq := by
        have heq := congrArg writesByProcessAndAddress (rest_firstStoreEdges g id addr)
        have htables := congrArg (fun r : SaturatedGraph => { r with
          writesByAddress :=
            modify g.writesByAddress addr [] fun m => AssocMap.insert m pid id
          writesByProcessAndAddress :=
            (g.firstStoreEdges id addr).writesByProcessAndAddress.modify pid
              fun m => modify m addr [] (· ++ [id]) }) hfold.rest_eq
        exact htables
      slots := ⟨hfold.slots.ins, hfold.slots.outs, hfold.slots.queue.congr rfl rfl⟩
      mem_inOf := fun a e => by
        have hmem := hfold.mem_inOf a e
        simp only [true_and]
        rw [and_comm (a := e = id)]
        exact hmem
      mem_outOf := fun a e => by
        have hmem := hfold.mem_outOf a e
        simp only [true_and]
        rw [and_comm (a := e = id)]
        exact hmem
      mem_queue := hfold.mem_queue }

/-- The stores of a process to an address, with one more event. -/
theorem writesOf_addStore {pid : Nat} (hpid : pid < g.writesByProcessAndAddress.length)
    (id : Nat) (addr : SymAddr) (p : Nat) (a : SymAddr) :
    (g.addStore pid id addr).writesOf p a =
      g.writesOf p a ++ if pid = p ∧ addr = a then [id] else [] := by
  unfold writesOf
  rw [writesByProcessAndAddress_addStore, GetD.getD_modify_of_lt _ _ hpid]
  by_cases hp : p = pid
  · subst hp
    rw [if_pos rfl, getD_modify]
    by_cases ha : addr = a <;> simp [ha]
  · simp [hp, Ne.symm hp]

/-- The first stores, with one more event. -/
theorem find?_firstWrites_addStore (pid id : Nat) (addr : SymAddr) (a : SymAddr) (p : Nat) :
    find? (getD (g.addStore pid id addr).writesByAddress a []) p =
      (find? (getD g.writesByAddress a []) p).or
        (if addr = a ∧ pid = p then some id else none) := by
  rw [writesByAddress_addStore]
  split
  · next hcontains =>
    by_cases h : addr = a ∧ pid = p
    · obtain ⟨rfl, rfl⟩ := h
      obtain ⟨b, hb⟩ := Option.isSome_iff_exists.mp hcontains
      rw [hb]
      rfl
    · rw [if_neg h, Option.or_none]
  · next hcontains =>
    have hnone : find? (getD g.writesByAddress addr []) pid = none :=
      Option.not_isSome_iff_eq_none.mp hcontains
    rw [getD_modify]
    by_cases ha : addr = a
    · subst ha
      rw [if_pos rfl, find?_insert]
      by_cases hp : pid = p
      · subst hp
        rw [if_pos rfl, hnone, if_pos ⟨rfl, rfl⟩]
        rfl
      · simp [hp]
    · simp [ha]

theorem wf_firstWrites_addStore (hwf : ∀ a, Wf (getD g.writesByAddress a [])) (pid id : Nat)
    (addr a : SymAddr) : Wf (getD (g.addStore pid id addr).writesByAddress a []) := by
  rw [writesByAddress_addStore]
  split
  · exact hwf a
  · rw [getD_modify]
    split
    · exact (hwf a).insert pid id
    · exact hwf a

/-- The edges of an event in the vectors of their sources. -/
theorem mem_outOf_addOuts {id : Nat} (hlt : ∀ i ∈ g.inOf id, i < g.outs.length) (a e : Nat) :
    e ∈ (g.addOuts id).outOf a ↔ e ∈ g.outOf a ∨ (e = id ∧ a ∈ g.inOf id) := by
  have hfold : ∀ (l : List Nat) (v : List (List Nat)), (∀ i ∈ l, i < v.length) →
      (e ∈ (l.foldl (fun outs i => pushAt outs i id) v).getD a [] ↔
        e ∈ v.getD a [] ∨ (e = id ∧ a ∈ l)) := by
    intro l
    induction l with
    | nil =>
      intro v _
      simp
    | cons i l ih =>
      intro v hv
      rw [List.foldl_cons, ih _ fun j hj => by
        rw [length_pushAt]
        exact hv j (List.mem_cons_of_mem _ hj)]
      rw [getD_pushAt _ _ (hv i List.mem_cons_self), List.mem_append, List.mem_ite_nil_right,
        List.mem_singleton, List.mem_cons, or_assoc, and_or_left, and_comm (a := a = i)]
  exact hfold _ _ hlt

theorem length_outs_addOuts (id : Nat) : (g.addOuts id).outs.length = g.outs.length := by
  have hfold : ∀ (l : List Nat) (v : List (List Nat)),
      (l.foldl (fun outs i => pushAt outs i id) v).length = v.length := by
    intro l
    induction l with
    | nil => exact fun _ => rfl
    | cons i l ih => exact fun v => (ih _).trans (length_pushAt v i id)
  exact hfold _ _

end SaturatedGraph

/-! ## The events -/

namespace Trace

variable {T : Trace}

theorem poPredecessor_concat_length (T : Trace) (c : Access) :
    Trace.poPredecessor (T ++ [c]) T.length = (T.thread c.pid).getLast? := by
  unfold poPredecessor
  rw [before_concat_length]

/-- An earlier event changes by its readers only. -/
theorem eventOf_concat_of_lt (c : Access) {e : Nat} (h : e < T.length) :
    Trace.eventOf (T ++ [c]) e =
      { T.eventOf e with
        readers := T.readers e ++ if c.readFrom = some e then [T.length] else [] } := by
  unfold eventOf index poPredecessor
  rw [acc_concat_of_lt c h, before_concat_of_lt c h, readers_concat]

/-- The last event of a process, as the source finds its index. -/
theorem index_concat_length {g : SaturatedGraph} (h : Tables T g) (c : Access) :
    (match (T.thread c.pid).getLast? with
      | some p => (g.ev p).index + 1
      | none => 1) = Trace.index (T ++ [c]) T.length := by
  have hindex : Trace.index (T ++ [c]) T.length = (T.thread c.pid).length + 1 := by
    unfold index
    rw [before_concat_length]
  rw [hindex]
  cases hp : (T.thread c.pid).getLast? with
  | none => rw [List.getLast?_eq_none_iff.mp hp, List.length_nil]
  | some p =>
    have hlt := (mem_thread.mp (List.mem_of_getLast? hp)).1
    show (g.ev p).index + 1 = _
    rw [h.ev hlt]
    show T.index p + 1 = _
    rw [index_eq_length hp]

/-- Nothing reads from an event that comes last. -/
theorem readers_length_eq_nil (hT : T.Wf) {c : Access}
    (hread : ∀ w, c.readFrom = some w → w < T.length) :
    Trace.readers (T ++ [c]) T.length = [] := by
  rw [readers_concat]
  have hold : T.readers T.length = [] := by
    refine List.eq_nil_iff_forall_not_mem.mpr fun r hr => ?_
    have hr := (mem_readers hT).mp hr
    have hload := lt_length_of_isLoad (hT.isLoad _ _ hr)
    have := hT.lt_of_readFrom _ _ hr
    omega
  rw [hold, if_neg fun h => Nat.lt_irrefl _ (hread _ h)]
  rfl

theorem modify_map_range {α : Type} (f : Nat → α) (n w : Nat) (upd : α → α) :
    ((List.range n).map f).modify w upd =
      (List.range n).map fun i => if i = w then upd (f i) else f i := by
  refine List.ext_getElem? fun i => ?_
  by_cases hi : i = w
  · subst hi
    rw [List.getElem?_modify_eq, List.getElem?_map, List.getElem?_map]
    cases hr : (List.range n)[i]? with
    | none => rfl
    | some j =>
      obtain ⟨_, rfl⟩ := List.getElem?_eq_some_iff.mp hr
      simp
  · rw [List.getElem?_modify_ne _ _ (Ne.symm hi), List.getElem?_map, List.getElem?_map]
    cases hr : (List.range n)[i]? with
    | none => rfl
    | some j =>
      obtain ⟨_, rfl⟩ := List.getElem?_eq_some_iff.mp hr
      simp [hi]

end Trace

/-! ## One call -/

section Stages

variable {T : Trace} {g : SaturatedGraph} (σ : MapOrder) (c : Access)

/-- `add_event` up to the edges of the load. -/
def stageRead (g : SaturatedGraph) : SaturatedGraph :=
  (g.appendSlots c.pid c.extId c.happensAfter).addRead σ g.events.length c.isLoad c.addr
    c.readFrom

/-- `add_event` up to the edges of the store. -/
def stageStore (g : SaturatedGraph) : SaturatedGraph :=
  if c.isStore then (stageRead σ c g).addStore c.pid g.events.length c.addr
  else stageRead σ c g

/-- An edge from a load of the initial value to an earlier first store. -/
def ReadEdge (T : Trace) (c : Access) (a e : Nat) : Prop :=
  c.isLoad ∧ c.readFrom = none ∧ a = T.length ∧ ∃ p, (T.writes p c.addr).head? = some e

/-- An edge from an earlier load of the initial value to a first store. -/
def StoreEdge (T : Trace) (c : Access) (a e : Nat) : Prop :=
  c.isStore ∧ T.writes c.pid c.addr = [] ∧ e = T.length ∧ a ∈ T.initReads c.addr

theorem ReadEdge.dst_lt {a e : Nat} (h : ReadEdge T c a e) : e < T.length := by
  obtain ⟨-, -, -, p, hp⟩ := h
  exact Trace.lt_length_of_isStore (Trace.mem_writes.mp (List.mem_of_head? hp)).1

theorem Built.grows_stageRead (h : Built T g) :
    SaturatedGraph.Grows (T.length + 1)
      { g.appendSlots c.pid c.extId c.happensAfter with events := (stageRead σ c g).events }
      (stageRead σ c g) (ReadEdge T c) (ReadEdge T c)
      fun x => ReadEdge T c T.length x := by
  have hslots := SaturatedGraph.slots_appendSlots h.slots c.pid c.extId c.happensAfter
  have hfirst : ∀ p w, find? (getD g.writesByAddress c.addr []) p = some w →
      w < T.length + 1 := by
    intro p w hw
    rw [h.firstWrites] at hw
    have hmem := Trace.mem_writes.mp (List.mem_of_head? hw)
    exact Nat.lt_succ_of_lt (Trace.lt_length_of_isStore hmem.1)
  have hgrows := SaturatedGraph.grows_addRead σ hslots (Nat.lt_succ_self _) c.isLoad c.addr
    c.readFrom (h.firstWrites_wf c.addr) hfirst
  have hwrites : ∀ p, find? (getD
      (g.appendSlots c.pid c.extId c.happensAfter).writesByAddress c.addr []) p =
      (T.writes p c.addr).head? := fun p => h.firstWrites c.addr p
  simp only [hwrites] at hgrows
  unfold stageRead
  rw [h.length_events]
  refine hgrows.congr (fun _ _ => Iff.rfl) (fun _ _ => Iff.rfl) fun x => ?_
  simp [ReadEdge]

/-- The fields of `g` that the first stages keep. -/
theorem Built.rest_stageRead (h : Built T g) :
    (stageRead σ c g).rest = ({ g.appendSlots c.pid c.extId c.happensAfter with
      events := (stageRead σ c g).events } : SaturatedGraph).rest :=
  (h.grows_stageRead σ c).rest_eq

theorem Built.grows_stageStore (h : Built T g) :
    SaturatedGraph.Grows (T.length + 1)
      { stageRead σ c g with
        writesByAddress := (stageStore σ c g).writesByAddress
        writesByProcessAndAddress := (stageStore σ c g).writesByProcessAndAddress }
      (stageStore σ c g) (StoreEdge T c) (StoreEdge T c) fun _ => False := by
  have hslots := (h.grows_stageRead σ c).slots
  have hrest := h.rest_stageRead σ c
  have hreads : (stageRead σ c g).readsFromInit = g.readsFromInit := by
    have heq := congrArg SaturatedGraph.readsFromInit hrest
    exact heq
  have hfirst : (stageRead σ c g).writesByAddress = g.writesByAddress := by
    have heq := congrArg SaturatedGraph.writesByAddress hrest
    exact heq
  unfold stageStore
  cases hstore : c.isStore with
  | false =>
    exact (SaturatedGraph.Grows.refl hslots).congr (by simp [StoreEdge, hstore])
      (by simp [StoreEdge, hstore]) (by simp)
  | true =>
    have hgrows := SaturatedGraph.grows_addStore hslots (Nat.lt_succ_self _) c.pid c.addr
      (by
        intro r hr
        rw [hreads, h.initReads] at hr
        exact Nat.lt_succ_of_lt (Trace.lt_length_of_mem_initReads hr))
    rw [h.length_events]
    refine hgrows.congr ?_ ?_ fun _ => Iff.rfl <;>
    · intro a e
      rw [hreads, hfirst, h.initReads, h.firstWrites, List.head?_eq_none_iff]
      simp [StoreEdge, hstore]

/-- The edges that one more event brings. -/
def NewEdge (T : Trace) (c : Access) (a e : Nat) : Prop :=
  (e = T.length ∧ a ∈ c.happensAfter) ∨ ReadEdge T c a e ∨ StoreEdge T c a e

/-- The incoming edges after the stages. -/
theorem Built.mem_inOf_stageStore (h : Built T g) (a e : Nat) :
    a ∈ (stageStore σ c g).inOf e ↔ a ∈ g.inOf e ∨ NewEdge T c a e := by
  have hstore := (h.grows_stageStore σ c).mem_inOf a e
  have hread := (h.grows_stageRead σ c).mem_inOf a e
  have hslots := SaturatedGraph.mem_inOf_appendSlots h.slots c.pid c.extId c.happensAfter a e
  unfold NewEdge
  rw [← or_assoc, ← hslots, ← or_assoc]
  exact hstore.trans (or_congr hread Iff.rfl)

/-- The outgoing edges after the stages. -/
theorem Built.mem_outOf_stageStore (h : Built T g) (a e : Nat) :
    e ∈ (stageStore σ c g).outOf a ↔
      ((e ∈ g.outOf a ∨ (e = T.length ∧ (T.thread c.pid).getLast? = some a)) ∨
        ReadEdge T c a e) ∨ StoreEdge T c a e := by
  have hstore := (h.grows_stageStore σ c).mem_outOf a e
  have hread := (h.grows_stageRead σ c).mem_outOf a e
  have hslots := SaturatedGraph.mem_outOf_appendSlots h.slots h.length_events c.pid c.extId
    c.happensAfter (fun p hp => by
      rw [h.threads] at hp
      exact (Trace.mem_thread.mp hp).1) a e
  rw [h.threads] at hslots
  exact hstore.trans (or_congr (hread.trans (or_congr hslots Iff.rfl)) Iff.rfl)

theorem NewEdge.src_lt {a e : Nat} (hafter : ∀ a ∈ c.happensAfter, a < T.length)
    (h : NewEdge T c a e) : a < T.length + 1 := by
  rcases h with ⟨-, ha⟩ | hread | hstore
  · exact Nat.lt_succ_of_lt (hafter a ha)
  · have := hread.2.2.1
    omega
  · exact Nat.lt_succ_of_lt (Trace.lt_length_of_mem_initReads hstore.2.2.2)

/-- The vectors of the graph after one more call, before the event goes on the
queue. -/
def finish (c : Access) (g g₃ : SaturatedGraph) : SaturatedGraph :=
  let g₄ := g₃.addOuts g.events.length
  { g₄ with
    events := g₄.events ++ [{
      pid := c.pid
      index := match (g.threadOf c.pid).getLast? with
        | some p => (g.ev p).index + 1
        | none => 1
      extId := c.extId
      isLoad := c.isLoad
      isStore := c.isStore
      addr := c.addr
      readFrom := c.readFrom
      readers := []
      poPredecessor := (g.threadOf c.pid).getLast? }]
    readsFromInit :=
      if c.readFrom = none ∧ c.isLoad then
        modify g₄.readsFromInit c.addr [] (· ++ [g.events.length])
      else g₄.readsFromInit
    vclocks := g₄.vclocks ++ [[]] }

theorem insertEvent_eq (g : SaturatedGraph) {kind : EventKind} (hload : c.isLoad = kind.isLoad)
    (hstore : c.isStore = kind.isStore) :
    g.insertEvent σ c.pid c.extId kind c.addr c.readFrom c.happensAfter =
      (finish c g (stageStore σ c g)).wqAdd g.events.length := by
  unfold finish stageStore stageRead
  rw [hload, hstore]
  rfl

/-- The events after one more call. -/
theorem Built.events_stageRead (h : Built T g) (hT : T.Wf)
    (hread : ∀ w, c.readFrom = some w → w < T.length) :
    (stageRead σ c g).events ++ [{ Trace.eventOf (T ++ [c]) T.length with readers := [] }] =
      (List.range (T ++ [c]).length).map (Trace.eventOf (T ++ [c])) := by
  rw [List.length_append, List.length_singleton, List.range_succ, List.map_append,
    List.map_singleton]
  congr 1
  · have hold : (List.range T.length).map (Trace.eventOf (T ++ [c])) =
        (List.range T.length).map fun e =>
          { T.eventOf e with
            readers := T.readers e ++ if c.readFrom = some e then [T.length] else [] } :=
      List.map_congr_left fun e he =>
        Trace.eventOf_concat_of_lt c (List.mem_range.mp he)
    rw [hold]
    cases hrf : c.readFrom with
    | none =>
      have hevents : (stageRead σ c g).events = g.events := by
        unfold stageRead
        rw [hrf]
        exact SaturatedGraph.events_addRead_none σ _ _ _ _
      rw [hevents, h.events]
      refine List.map_congr_left fun e _ => ?_
      rw [if_neg (fun h => by cases h), List.append_nil]
      rfl
    | some w =>
      have hevents : (stageRead σ c g).events = g.events.modify w fun e =>
          { e with readers := e.readers ++ [g.events.length] } := by
        unfold stageRead
        rw [hrf]
        rfl
      rw [hevents, h.length_events, h.events, Trace.modify_map_range]
      refine List.map_congr_left fun e _ => ?_
      by_cases hw : e = w
      · subst hw
        rw [if_pos rfl, if_pos rfl]
        rfl
      · rw [if_neg hw, if_neg fun heq => hw (Option.some.inj heq).symm, List.append_nil]
        rfl
  · have hnil := Trace.readers_length_eq_nil hT hread
    congr 1
    show _ = { Trace.eventOf (T ++ [c]) T.length with
      readers := Trace.readers (T ++ [c]) T.length }
    rw [hnil]

/-- The stages keep all but the edges, the queue, the events and the tables of
stores. -/
theorem Built.rest_stageStore (h : Built T g) :
    (stageStore σ c g).rest = ({ g.appendSlots c.pid c.extId c.happensAfter with
      events := (stageRead σ c g).events
      writesByAddress := (stageStore σ c g).writesByAddress
      writesByProcessAndAddress := (stageStore σ c g).writesByProcessAndAddress } :
      SaturatedGraph).rest := by
  have hread := congrArg (fun r : SaturatedGraph => { r with
    writesByAddress := (stageStore σ c g).writesByAddress
    writesByProcessAndAddress := (stageStore σ c g).writesByProcessAndAddress })
    (h.rest_stageRead σ c)
  exact (h.grows_stageStore σ c).rest_eq.trans hread

theorem Built.writesOf_stageStore (h : Built T g) (p : Nat) (a : SymAddr) :
    (stageStore σ c g).writesOf p a = Trace.writes (T ++ [c]) p a := by
  have htable : (stageRead σ c g).writesByProcessAndAddress =
      enlarge g.writesByProcessAndAddress (c.pid + 1) [] := by
    have heq := congrArg SaturatedGraph.writesByProcessAndAddress (h.rest_stageRead σ c)
    exact heq
  have hread : (stageRead σ c g).writesOf p a = T.writes p a := by
    rw [← h.writes]
    unfold SaturatedGraph.writesOf
    rw [htable, getD_enlarge]
  unfold stageStore
  rw [Trace.writes_concat]
  cases hstore : c.isStore with
  | false => simpa using hread
  | true =>
    rw [if_pos rfl, SaturatedGraph.writesOf_addStore, hread, h.length_events]
    · simp
    · rw [htable, length_enlarge]
      omega

theorem Built.firstWrites_stageStore (h : Built T g) (a : SymAddr) (p : Nat) :
    find? (getD (stageStore σ c g).writesByAddress a []) p =
      (Trace.writes (T ++ [c]) p a).head? := by
  have hfirst : (stageRead σ c g).writesByAddress = g.writesByAddress := by
    have heq := congrArg SaturatedGraph.writesByAddress (h.rest_stageRead σ c)
    exact heq
  unfold stageStore
  rw [Trace.writes_concat, List.head?_append, ← h.firstWrites]
  cases hstore : c.isStore with
  | false =>
    rw [if_neg Bool.false_ne_true, hfirst]
    simp
  | true =>
    rw [if_pos rfl, SaturatedGraph.find?_firstWrites_addStore, hfirst, h.length_events]
    congr 1
    simp only [true_and, and_comm (a := c.pid = p)]
    split <;> rfl

theorem Built.firstWrites_wf_stageStore (h : Built T g) (a : SymAddr) :
    Wf (getD (stageStore σ c g).writesByAddress a []) := by
  have hfirst : (stageRead σ c g).writesByAddress = g.writesByAddress := by
    have heq := congrArg SaturatedGraph.writesByAddress (h.rest_stageRead σ c)
    exact heq
  unfold stageStore
  split
  · refine SaturatedGraph.wf_firstWrites_addStore ?_ _ _ _ _
    rw [hfirst]
    exact h.firstWrites_wf
  · rw [hfirst]
    exact h.firstWrites_wf a

/-- The vectors after one more call. -/
theorem Built.slots_finish (h : Built T g) :
    (finish c g (stageStore σ c g)).Slots (T.length + 1) where
  ins := (h.grows_stageStore σ c).slots.ins
  outs := (SaturatedGraph.length_outs_addOuts _).trans (h.grows_stageStore σ c).slots.outs
  queue := (h.grows_stageStore σ c).slots.queue.congr rfl rfl

theorem Built.mem_outOf_finish (h : Built T g)
    (hafter : ∀ a ∈ c.happensAfter, a < T.length) (a e : Nat) :
    e ∈ (finish c g (stageStore σ c g)).outOf a ↔
      e ∈ g.outOf a ∨ (e = T.length ∧ (T.thread c.pid).getLast? = some a) ∨
        NewEdge T c a e := by
  have hnone : g.inOf T.length = [] := by
    unfold SaturatedGraph.inOf
    rw [List.getD_eq_getElem?_getD, List.getElem?_eq_none (Nat.le_of_eq h.slots.ins)]
    rfl
  have hmem : ∀ i, i ∈ (stageStore σ c g).inOf T.length ↔ NewEdge T c i T.length := by
    intro i
    rw [h.mem_inOf_stageStore, hnone]
    simp
  have hlt : ∀ i ∈ (stageStore σ c g).inOf T.length, i < (stageStore σ c g).outs.length := by
    intro i hi
    rw [(h.grows_stageStore σ c).slots.outs]
    exact ((hmem i).mp hi).src_lt c hafter
  have houts := SaturatedGraph.mem_outOf_addOuts hlt a e
  rw [h.mem_outOf_stageStore, hmem, ← h.length_events] at houts
  refine houts.trans ?_
  rw [h.length_events]
  constructor
  · rintro ((((h | h) | h) | h) | ⟨rfl, h⟩)
    · exact .inl h
    · exact .inr (.inl h)
    · exact .inr (.inr (.inr (.inl h)))
    · exact .inr (.inr (.inr (.inr h)))
    · exact .inr (.inr h)
  · rintro (h | h | ⟨rfl, h⟩ | h | h)
    · exact .inl (.inl (.inl (.inl h)))
    · exact .inl (.inl (.inl (.inr h)))
    · exact .inr ⟨rfl, .inl ⟨rfl, h⟩⟩
    · exact .inl (.inl (.inr h))
    · exact .inl (.inr h)

/-- The program-order edges with one more event. -/
theorem Trace.poPredecessor_concat (T : Trace) (c : Access) (a e : Nat) :
    (e < (T ++ [c]).length ∧ Trace.poPredecessor (T ++ [c]) e = some a) ↔
      (e < T.length ∧ T.poPredecessor e = some a) ∨
        (e = T.length ∧ (T.thread c.pid).getLast? = some a) := by
  rw [← Trace.poPredecessor_concat_length, List.length_append, List.length_singleton,
    Nat.lt_succ_iff_lt_or_eq]
  constructor
  · rintro ⟨he | rfl, hpo⟩
    · unfold Trace.poPredecessor at hpo ⊢
      rw [Trace.before_concat_of_lt c he] at hpo
      exact .inl ⟨he, hpo⟩
    · exact .inr ⟨rfl, hpo⟩
  · rintro (⟨he, hpo⟩ | ⟨rfl, hpo⟩)
    · refine ⟨.inl he, ?_⟩
      unfold Trace.poPredecessor at hpo ⊢
      rw [Trace.before_concat_of_lt c he]
      exact hpo
    · exact ⟨.inr rfl, hpo⟩

/-- What one more event does to the edges, the clocks and the queue. -/
structure Inserted (T : Trace) (c : Access) (g g' : SaturatedGraph) : Prop where
  mem_inOf : ∀ a e, a ∈ g'.inOf e ↔ a ∈ g.inOf e ∨ NewEdge T c a e
  mem_outOf : ∀ a e, e ∈ g'.outOf a ↔ e ∈ g.outOf a ∨
    (e = T.length ∧ (T.thread c.pid).getLast? = some a) ∨ NewEdge T c a e
  mem_queue : ∀ x, x ∈ g'.wqQueue ↔ x ∈ g.wqQueue ∨ ReadEdge T c T.length x ∨ x = T.length
  vclocks : g'.vclocks = g.vclocks ++ [[]]
  saturatedUntil : g'.saturatedUntil = g.saturatedUntil

/-- One more call. -/
theorem Built.insertEvent (h : Built T g) (hT : T.Wf) {kind : EventKind}
    (hload : c.isLoad = kind.isLoad) (hstore : c.isStore = kind.isStore)
    (hnew : ∀ i < T.length, (T.acc i).extId ≠ c.extId)
    (hread : ∀ w, c.readFrom = some w → w < T.length) :
    Built (T ++ [c])
      (g.insertEvent σ c.pid c.extId kind c.addr c.readFrom c.happensAfter) := by
  have hlen : (T ++ [c]).length = T.length + 1 := by simp
  rw [insertEvent_eq σ c g hload hstore, h.length_events]
  have hadd := SaturatedGraph.grows_wqAdd (h.slots_finish σ c) T.length
  have hrest := hadd.rest_eq
  have hstage := h.rest_stageStore σ c
  have hevents := h.events_stageRead σ c hT hread
  exact {
    events := by
      rw [hadd.events_eq, ← hevents]
      have heq : (stageStore σ c g).events = (stageRead σ c g).events := by
        have heq := congrArg SaturatedGraph.events hstage
        exact heq
      show (stageStore σ c g).events ++ _ = _
      rw [heq, h.threads, Trace.index_concat_length h.toTables,
        ← Trace.poPredecessor_concat_length]
      congr 2
      unfold Trace.eventOf
      rw [Trace.acc_concat_length]
    threads := fun p => by
      have heq : ((finish c g (stageStore σ c g)).wqAdd T.length).eventsByPid =
          (stageStore σ c g).eventsByPid := by
        have heq := congrArg SaturatedGraph.eventsByPid hrest
        exact heq
      have hslots : (stageStore σ c g).eventsByPid =
          (g.appendSlots c.pid c.extId c.happensAfter).eventsByPid := by
        have heq := congrArg SaturatedGraph.eventsByPid hstage
        exact heq
      unfold SaturatedGraph.threadOf
      rw [heq, hslots, Trace.thread_concat, ← h.threads, ← h.length_events]
      exact SaturatedGraph.threadOf_appendSlots _ _ _ p
    writes := fun p a => by
      rw [← h.writesOf_stageStore σ c]
      have heq := congrArg SaturatedGraph.writesByProcessAndAddress hrest
      exact congrArg (fun t : List (Map SymAddr (List Nat)) => getD (t.getD p []) a []) heq
    ids := by
      have heq : ((finish c g (stageStore σ c g)).wqAdd T.length).extidToId =
          (stageStore σ c g).extidToId := by
        have heq := congrArg SaturatedGraph.extidToId hrest
        exact heq
      have hslots : (stageStore σ c g).extidToId =
          AssocMap.insert g.extidToId c.extId g.events.length := by
        have heq := congrArg SaturatedGraph.extidToId hstage
        exact heq
      intro i hi
      rw [heq, hslots, find?_insert, h.length_events]
      rcases Nat.lt_or_ge i T.length with hlt | hge
      · rw [Trace.acc_concat_of_lt c hlt, if_neg (Ne.symm (hnew i hlt))]
        exact h.ids i hlt
      · obtain rfl : i = T.length := by omega
        rw [Trace.acc_concat_length, if_pos rfl]
    firstWrites_wf := fun a => by
      have heq := congrArg SaturatedGraph.writesByAddress hrest
      have hwf := h.firstWrites_wf_stageStore σ c a
      exact (congrArg (fun t : Map SymAddr (Map Nat Nat) => Wf (getD t a [])) heq).mpr hwf
    firstWrites := fun a p => by
      have heq := congrArg SaturatedGraph.writesByAddress hrest
      have hfirst := h.firstWrites_stageStore σ c a p
      exact (congrArg (fun t : Map SymAddr (Map Nat Nat) => find? (getD t a []) p) heq).trans
        hfirst
    initReads := fun a => by
      have heq : ((finish c g (stageStore σ c g)).wqAdd T.length).readsFromInit =
          (finish c g (stageStore σ c g)).readsFromInit := by
        have heq := congrArg SaturatedGraph.readsFromInit hrest
        exact heq
      have hslots : (stageStore σ c g).readsFromInit = g.readsFromInit := by
        have heq := congrArg SaturatedGraph.readsFromInit hstage
        exact heq
      rw [heq, Trace.initReads_concat, ← h.initReads]
      show getD (if c.readFrom = none ∧ c.isLoad then
          modify (stageStore σ c g).readsFromInit c.addr [] (· ++ [g.events.length])
        else (stageStore σ c g).readsFromInit) a [] = _
      rw [hslots, h.length_events]
      by_cases hinit : c.readFrom = none ∧ c.isLoad
      · rw [if_pos hinit, getD_modify]
        by_cases ha : c.addr = a
        · rw [if_pos ha, if_pos ⟨hinit.2, hinit.1, ha⟩]
        · rw [if_neg ha, if_neg fun hc => ha hc.2.2, List.append_nil]
      · rw [if_neg hinit, if_neg fun hc => hinit ⟨hc.2.1, hc.1⟩, List.append_nil]
    slots := by
      rw [hlen]
      exact hadd.slots }

theorem Built.inserted (h : Built T g) {kind : EventKind}
    (hload : c.isLoad = kind.isLoad) (hstore : c.isStore = kind.isStore)
    (hafter : ∀ a ∈ c.happensAfter, a < T.length) :
    Inserted T c g (g.insertEvent σ c.pid c.extId kind c.addr c.readFrom c.happensAfter) := by
  rw [insertEvent_eq σ c g hload hstore, h.length_events]
  have hadd := SaturatedGraph.grows_wqAdd (h.slots_finish σ c) T.length
  have hrest := hadd.rest_eq
  have hstage := h.rest_stageStore σ c
  exact {
    mem_inOf := fun a e => by
      rw [hadd.mem_inOf, or_false]
      exact h.mem_inOf_stageStore σ c a e
    mem_outOf := fun a e => by
      rw [hadd.mem_outOf, or_false]
      exact h.mem_outOf_finish σ c hafter a e
    mem_queue := fun x => by
      have hfinish : x ∈ (finish c g (stageStore σ c g)).wqQueue ↔
          x ∈ g.wqQueue ∨ ReadEdge T c T.length x := by
        have hstore := (h.grows_stageStore σ c).mem_queue x
        rw [or_false] at hstore
        exact hstore.trans ((h.grows_stageRead σ c).mem_queue x)
      rw [hadd.mem_queue, hfinish, or_assoc]
    vclocks := by
      have heq : ((finish c g (stageStore σ c g)).wqAdd T.length).vclocks =
          (stageStore σ c g).vclocks ++ [[]] := by
        have heq := congrArg SaturatedGraph.vclocks hrest
        exact heq
      have hslots : (stageStore σ c g).vclocks = g.vclocks := by
        have heq := congrArg SaturatedGraph.vclocks hstage
        exact heq
      rw [heq, hslots]
    saturatedUntil := by
      have heq : ((finish c g (stageStore σ c g)).wqAdd T.length).saturatedUntil =
          (stageStore σ c g).saturatedUntil := by
        have heq := congrArg SaturatedGraph.saturatedUntil hrest
        exact heq
      have hslots : (stageStore σ c g).saturatedUntil = g.saturatedUntil := by
        have heq := congrArg SaturatedGraph.saturatedUntil hstage
        exact heq
      rw [heq, hslots] }

end Stages

/-! ## All calls -/

/-- The access at the position of an identifier. -/
theorem acc_trace_position {calls : List Call} {x : IID}
    (h : ∃ a ∈ calls, a.extId = x) :
    ∃ a ∈ calls, a.extId = x ∧ (trace calls).acc (position calls x) = a.access calls := by
  have hlt := position_lt h
  have hx := List.findIdx_getElem (p := fun a : Call => decide (a.extId = x)) (w := hlt)
  refine ⟨calls[position calls x], List.getElem_mem _, of_decide_eq_true hx, ?_⟩
  unfold Trace.acc trace
  rw [List.getD_eq_getElem?_getD, List.getElem?_map, List.getElem?_eq_getElem hlt]
  rfl

/-- Identifiers are unique, so a call is the one at the position of its
identifier. -/
theorem Legal.eq_of_extId {calls : List Call} (h : Legal calls) {a b : Call} (ha : a ∈ calls)
    (hb : b ∈ calls) (heq : a.extId = b.extId) : a = b := by
  induction h with
  | nil => cases ha
  | @concat calls c _ hnew _ _ ih =>
    rcases List.mem_append.mp ha with ha' | ha' <;>
      rcases List.mem_append.mp hb with hb' | hb'
    · exact ih ha' hb'
    · obtain rfl := List.mem_singleton.mp hb'
      exact absurd heq (hnew a ha')
    · obtain rfl := List.mem_singleton.mp ha'
      exact absurd heq.symm (hnew b hb')
    · rw [List.mem_singleton.mp ha', List.mem_singleton.mp hb']

theorem Trace.wf_concat {T : Trace} (hT : T.Wf) {c : Access}
    (hread : ∀ w, c.readFrom = some w → c.isLoad ∧ w < T.length ∧ (T.acc w).isStore ∧
      (T.acc w).addr = c.addr)
    (hafter : ∀ a ∈ c.happensAfter, a < T.length) : Trace.Wf (T ++ [c]) := by
  have hdefault : ∀ e, T.length < e → Trace.acc (T ++ [c]) e = default := by
    intro e he
    unfold acc
    rw [List.getD_eq_getElem?_getD, List.getElem?_eq_none (by simp; omega)]
    rfl
  have hold : ∀ e w, (Trace.acc (T ++ [c]) e).readFrom = some w →
      (e < T.length ∧ (T.acc e).readFrom = some w) ∨ (e = T.length ∧ c.readFrom = some w) := by
    intro e w hw
    rcases Nat.lt_trichotomy e T.length with he | rfl | he
    · rw [acc_concat_of_lt c he] at hw
      exact .inl ⟨he, hw⟩
    · rw [acc_concat_length] at hw
      exact .inr ⟨rfl, hw⟩
    · rw [hdefault e he] at hw
      cases hw
  exact {
    isLoad := fun e w hw => by
      rcases hold e w hw with ⟨he, hrf⟩ | ⟨rfl, hrf⟩
      · rw [acc_concat_of_lt c he]
        exact hT.isLoad e w hrf
      · rw [acc_concat_length]
        exact (hread w hrf).1
    lt_of_readFrom := fun e w hw => by
      rcases hold e w hw with ⟨he, hrf⟩ | ⟨rfl, hrf⟩
      · exact hT.lt_of_readFrom e w hrf
      · exact (hread w hrf).2.1
    isStore := fun e w hw => by
      rcases hold e w hw with ⟨he, hrf⟩ | ⟨rfl, hrf⟩
      · rw [acc_concat_of_lt c (Nat.lt_trans (hT.lt_of_readFrom e w hrf) he)]
        exact hT.isStore e w hrf
      · rw [acc_concat_of_lt c (hread w hrf).2.1]
        exact (hread w hrf).2.2.1
    addr_eq := fun e w hw => by
      rcases hold e w hw with ⟨he, hrf⟩ | ⟨rfl, hrf⟩
      · rw [acc_concat_of_lt c (Nat.lt_trans (hT.lt_of_readFrom e w hrf) he),
          acc_concat_of_lt c he]
        exact hT.addr_eq e w hrf
      · rw [acc_concat_of_lt c (hread w hrf).2.1, acc_concat_length]
        exact (hread w hrf).2.2.2
    lt_of_after := fun e a ha => by
      rcases Nat.lt_trichotomy e T.length with he | rfl | he
      · rw [acc_concat_of_lt c he] at ha
        exact hT.lt_of_after e a ha
      · rw [acc_concat_length] at ha
        exact hafter a ha
      · rw [hdefault e he] at ha
        cases ha }

/-- The references of a legal call, as positions. -/
theorem access_refers {calls : List Call} {c : Call}
    (hread : ∀ x, c.readFrom = some x → c.kind.isLoad ∧
      ∃ w ∈ calls, w.extId = x ∧ w.kind.isStore ∧ w.addr = c.addr)
    (hafter : ∀ x ∈ c.happensAfter, ∃ a ∈ calls, a.extId = x) (hcalls : Legal calls) :
    (∀ w, (c.access calls).readFrom = some w → (c.access calls).isLoad ∧
      w < (trace calls).length ∧ ((trace calls).acc w).isStore ∧
        ((trace calls).acc w).addr = (c.access calls).addr) ∧
      ∀ a ∈ (c.access calls).happensAfter, a < (trace calls).length := by
  constructor
  · intro w hw
    obtain ⟨x, hx, rfl⟩ := Option.map_eq_some_iff.mp hw
    obtain ⟨hload, b, hb, hbx, hstore, haddr⟩ := hread x hx
    obtain ⟨a, ha, hax, hacc⟩ := acc_trace_position ⟨b, hb, hbx⟩
    obtain rfl := hcalls.eq_of_extId ha hb (hax.trans hbx.symm)
    rw [hacc, length_trace]
    exact ⟨hload, position_lt ⟨a, ha, hax⟩, hstore, haddr⟩
  · intro a ha
    obtain ⟨x, hx, rfl⟩ := List.mem_map.mp ha
    rw [length_trace]
    exact position_lt (hafter x hx)

theorem Legal.trace_wf {calls : List Call} (h : Legal calls) : (trace calls).Wf := by
  induction h with
  | nil => exact ⟨nofun, nofun, nofun, nofun, nofun⟩
  | @concat calls c hcalls _ hread hafter ih =>
    have hrefers := access_refers hread hafter hcalls
    rw [trace_concat hcalls (fun x hx => by
      obtain ⟨-, w, hw, hwx, -⟩ := hread x hx
      exact ⟨w, hw, hwx⟩) hafter]
    exact Trace.wf_concat ih hrefers.1 hrefers.2

/-- An identifier that was added before is found at its position. -/
theorem Built.find?_insert {calls : List Call} {g : SaturatedGraph}
    (h : Built (trace calls) g) {x y : IID} (hx : ∃ a ∈ calls, a.extId = x) (hne : y ≠ x)
    (n : Nat) : find? (AssocMap.insert g.extidToId y n) x = some (position calls x) := by
  obtain ⟨a, ha, hax, hacc⟩ := acc_trace_position hx
  rw [find?_insert_ne _ _ hne]
  have hids := h.ids (position calls x) (by
    rw [length_trace]
    exact position_lt hx)
  rw [hacc] at hids
  show find? g.extidToId x = _
  rw [← hax] at hids ⊢
  exact hids

theorem mapM_eq_some {α β : Type} {f : α → Option β} {k : α → β} {l : List α}
    (h : ∀ x ∈ l, f x = some (k x)) : l.mapM f = some (l.map k) := by
  induction l with
  | nil => rfl
  | cons x l ih =>
    rw [List.mapM_cons, h x List.mem_cons_self, ih fun y hy => h y (List.mem_cons_of_mem _ hy)]
    rfl

/-- One legal call is `insertEvent` on positions. -/
theorem Built.addEvent_eq (σ : MapOrder) {calls : List Call} {g : SaturatedGraph}
    (h : Built (trace calls) g) {c : Call} (hnew : ∀ b ∈ calls, b.extId ≠ c.extId)
    (hread : ∀ x, c.readFrom = some x → ∃ a ∈ calls, a.extId = x)
    (hafter : ∀ x ∈ c.happensAfter, ∃ a ∈ calls, a.extId = x) :
    g.addEvent σ c.pid c.extId c.kind c.addr c.readFrom c.happensAfter =
      some (g.insertEvent σ c.pid c.extId c.kind c.addr (c.access calls).readFrom
        (c.access calls).happensAfter) := by
  have hfind : ∀ x, (∃ a ∈ calls, a.extId = x) →
      find? (AssocMap.insert g.extidToId c.extId g.events.length) x =
        some (position calls x) := by
    intro x hx
    refine h.find?_insert hx ?_ _
    obtain ⟨a, ha, rfl⟩ := hx
    exact Ne.symm (hnew a ha)
  have hmap := mapM_eq_some fun x hx => hfind x (hafter x hx)
  unfold SaturatedGraph.addEvent Call.access
  simp only [hmap]
  cases hrf : c.readFrom with
  | none => rfl
  | some x =>
    simp only [hfind x (hread x hrf)]
    rfl

/-- One more legal call succeeds. -/
theorem Built.addEvent (σ : MapOrder) {calls : List Call} {c : Call} {g : SaturatedGraph}
    (h : Built (trace calls) g) (hcalls : Legal (calls ++ [c])) :
    ∃ g', g.addEvent σ c.pid c.extId c.kind c.addr c.readFrom c.happensAfter = some g' ∧
      trace (calls ++ [c]) = trace calls ++ [c.access calls] ∧
      Built (trace (calls ++ [c])) g' ∧ Inserted (trace calls) (c.access calls) g g' := by
  obtain ⟨hcalls, hnew, hread, hafter⟩ := hcalls.of_concat
  have hreads : ∀ x, c.readFrom = some x → ∃ a ∈ calls, a.extId = x := by
    intro x hx
    obtain ⟨-, w, hw, hwx, -⟩ := hread x hx
    exact ⟨w, hw, hwx⟩
  have hrefers := access_refers hread hafter hcalls
  have htrace := trace_concat hcalls hreads hafter
  refine ⟨_, h.addEvent_eq σ hnew hreads hafter, htrace, ?_, ?_⟩
  · rw [htrace]
    refine h.insertEvent σ (c.access calls) hcalls.trace_wf rfl rfl ?_
      (fun w hw => (hrefers.1 w hw).2.1)
    intro i hi
    have hlt : i < calls.length := by rwa [length_trace] at hi
    have hacc : (trace calls).acc i = calls[i].access calls := by
      unfold Trace.acc trace
      rw [List.getD_eq_getElem?_getD, List.getElem?_map, List.getElem?_eq_getElem hlt]
      rfl
    rw [hacc]
    exact hnew _ (List.getElem_mem hlt)
  · exact h.inserted σ (c.access calls) rfl rfl hrefers.2

end ViEqui.Saturation
