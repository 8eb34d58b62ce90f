import Mathlib.Data.List.Nodup
import Mathlib.Logic.Relation
import ViEqui.SaturatedGraph

/-!
# The order that reads-from forces

A `Trace` is what a sequence of `add_event` calls says, with every event named
by its position.

* `ScOrder`: a total order of the events in which each load reads the latest
  earlier store.
* `Forced`: the least relation that is closed under the saturation rules.
  Every `ScOrder` extends it (`Forced.lt_of_scOrder`).
* `thread`, `index`, `poPredecessor`, `writes`, `readers`: the tables that
  `SaturatedGraph` keeps, as functions of the trace.
-/

namespace ViEqui.Saturation

open Rfsc (SymAddr)

/-- The arguments of one `add_event` call. -/
structure Access where
  pid : Nat
  extId : IID
  isLoad : Bool
  isStore : Bool
  addr : SymAddr
  readFrom : Option Nat
  happensAfter : List Nat
deriving DecidableEq, Repr, Inhabited

abbrev Trace := List Access

namespace Trace

def acc (T : Trace) (e : Nat) : Access := T.getD e default

/-- An event refers to earlier events, and a load reads from a store to its
address. -/
structure Wf (T : Trace) : Prop where
  isLoad : ∀ e w, (T.acc e).readFrom = some w → (T.acc e).isLoad
  lt_of_readFrom : ∀ e w, (T.acc e).readFrom = some w → w < e
  isStore : ∀ e w, (T.acc e).readFrom = some w → (T.acc w).isStore
  addr_eq : ∀ e w, (T.acc e).readFrom = some w → (T.acc w).addr = (T.acc e).addr
  lt_of_after : ∀ e a, a ∈ (T.acc e).happensAfter → a < e

/-- `a` is an earlier event of the process of `e`. -/
def ProgramOrder (T : Trace) (a e : Nat) : Prop :=
  a < e ∧ e < T.length ∧ (T.acc a).pid = (T.acc e).pid

/-- `s` stores to the address of `r`. -/
def StoreTo (T : Trace) (s r : Nat) : Prop :=
  (T.acc s).isStore ∧ (T.acc s).addr = (T.acc r).addr

/-! ## Total orders and forced edges -/

/-- A total order that extends program order, read-from and the happens-after
edges, and in which each load reads the latest earlier store, or the initial
value when there is none. -/
structure ScOrder (T : Trace) (lt : Nat → Nat → Prop) : Prop where
  irrefl : ∀ e, ¬ lt e e
  trans : ∀ a b e, lt a b → lt b e → lt a e
  total : ∀ a e, a < T.length → e < T.length → a ≠ e → lt a e ∨ lt e a
  po : ∀ a e, T.ProgramOrder a e → lt a e
  readFrom : ∀ w r, (T.acc r).readFrom = some w → lt w r
  after : ∀ a e, a ∈ (T.acc e).happensAfter → lt a e
  latest : ∀ r w s, (T.acc r).isLoad → (T.acc r).readFrom = some w → T.StoreTo s r →
    s ≠ w → lt s r → lt s w
  initial : ∀ r s, (T.acc r).isLoad → (T.acc r).readFrom = none → T.StoreTo s r →
    ¬ lt s r

/-- The saturation rules over the edges of the trace and the further edges
`extra`. -/
inductive Forced (T : Trace) (extra : Nat → Nat → Prop) : Nat → Nat → Prop
  | po {a e} : T.ProgramOrder a e → Forced T extra a e
  | readFrom {w r} : (T.acc r).readFrom = some w → Forced T extra w r
  | after {a e} : a ∈ (T.acc e).happensAfter → Forced T extra a e
  | edge {a e} : extra a e → Forced T extra a e
  | trans {a b e} : Forced T extra a b → Forced T extra b e → Forced T extra a e
  | coherence {r w s} : (T.acc r).isLoad → (T.acc r).readFrom = some w → T.StoreTo s r →
      s ≠ w → s ≠ r → Forced T extra s r → Forced T extra s w
  | fromRead {r w s} : (T.acc r).isLoad → (T.acc r).readFrom = some w → T.StoreTo s r →
      s ≠ w → s ≠ r → Forced T extra w s → Forced T extra r s
  | initial {r s} : (T.acc r).isLoad → (T.acc r).readFrom = none → T.StoreTo s r →
      s ≠ r → Forced T extra r s

variable {T : Trace}

theorem lt_length_of_isLoad {e : Nat} (h : (T.acc e).isLoad) : e < T.length := by
  by_contra hlen
  unfold acc at h
  rw [List.getD_eq_getElem?_getD, List.getElem?_eq_none (by omega)] at h
  cases h

theorem lt_length_of_isStore {e : Nat} (h : (T.acc e).isStore) : e < T.length := by
  by_contra hlen
  unfold acc at h
  rw [List.getD_eq_getElem?_getD, List.getElem?_eq_none (by omega)] at h
  cases h

theorem lt_length_of_after {a e : Nat} (h : a ∈ (T.acc e).happensAfter) :
    e < T.length := by
  by_contra hlen
  unfold acc at h
  rw [List.getD_eq_getElem?_getD, List.getElem?_eq_none (by omega)] at h
  cases h

theorem StoreTo.lt_length {s r : Nat} (h : T.StoreTo s r) : s < T.length :=
  lt_length_of_isStore h.1

/-- Every total order contains the forced edges. -/
theorem Forced.lt_of_scOrder {extra lt : Nat → Nat → Prop} (hsc : ScOrder T lt)
    (hextra : ∀ a e, extra a e → lt a e) {a e : Nat} (h : Forced T extra a e) :
    lt a e := by
  induction h with
  | po h => exact hsc.po _ _ h
  | readFrom h => exact hsc.readFrom _ _ h
  | after h => exact hsc.after _ _ h
  | edge h => exact hextra _ _ h
  | trans _ _ ih₁ ih₂ => exact hsc.trans _ _ _ ih₁ ih₂
  | coherence hload hrf hs hw _ _ ih => exact hsc.latest _ _ _ hload hrf hs hw ih
  | @fromRead r w s hload hrf hs hw hr _ ih =>
    -- a store between `w` and its reader would be a later one
    rcases hsc.total r s (lt_length_of_isLoad hload) hs.lt_length (Ne.symm hr) with h | h
    · exact h
    · have hsw : lt s w := hsc.latest _ _ _ hload hrf hs hw h
      exact absurd (hsc.trans _ _ _ hsw ih) (hsc.irrefl s)
  | @initial r s hload hrf hs hr =>
    rcases hsc.total r s (lt_length_of_isLoad hload) hs.lt_length (Ne.symm hr) with h | h
    · exact h
    · exact absurd h (hsc.initial _ _ hload hrf hs)

/-! ## The tables of a trace -/

/-- The events with the property `P`, in order. -/
def select (T : Trace) (P : Access → Bool) : List Nat :=
  (List.range T.length).filter fun i => P (T.acc i)

/-- The events of a process. -/
def thread (T : Trace) (p : Nat) : List Nat := T.select fun x => x.pid = p

/-- The earlier events of the process of `e`. -/
def before (T : Trace) (e : Nat) : List Nat :=
  (List.range e).filter fun i => (T.acc i).pid = (T.acc e).pid

def index (T : Trace) (e : Nat) : Nat := (T.before e).length + 1

def poPredecessor (T : Trace) (e : Nat) : Option Nat := (T.before e).getLast?

/-- The stores of a process to an address. -/
def writes (T : Trace) (p : Nat) (a : SymAddr) : List Nat :=
  T.select fun x => x.isStore && x.pid = p && x.addr = a

def readers (T : Trace) (w : Nat) : List Nat := T.select fun x => x.readFrom = some w

/-- The loads of the initial value of an address. -/
def initReads (T : Trace) (a : SymAddr) : List Nat :=
  T.select fun x => x.isLoad && x.readFrom = none && x.addr = a

theorem mem_select {P : Access → Bool} {e : Nat} :
    e ∈ T.select P ↔ e < T.length ∧ P (T.acc e) := by
  simp [select]

theorem select_sorted (P : Access → Bool) : (T.select P).Pairwise (· < ·) :=
  List.pairwise_lt_range.filter _

@[simp] theorem mem_thread {p e : Nat} :
    e ∈ T.thread p ↔ e < T.length ∧ (T.acc e).pid = p := by
  simp [thread, mem_select]

@[simp] theorem mem_before {a e : Nat} :
    a ∈ T.before e ↔ a < e ∧ (T.acc a).pid = (T.acc e).pid := by
  simp [before]

@[simp] theorem mem_writes {p e : Nat} {a : SymAddr} :
    e ∈ T.writes p a ↔
      (T.acc e).isStore ∧ (T.acc e).pid = p ∧ (T.acc e).addr = a := by
  rw [writes, mem_select]
  constructor
  · rintro ⟨-, h⟩
    simpa [and_assoc] using h
  · intro h
    exact ⟨lt_length_of_isStore h.1, by simpa [and_assoc] using h⟩

theorem mem_readers (hT : T.Wf) {w r : Nat} :
    r ∈ T.readers w ↔ (T.acc r).readFrom = some w := by
  rw [readers, mem_select]
  constructor
  · rintro ⟨-, h⟩
    simpa using h
  · intro h
    exact ⟨lt_length_of_isLoad (hT.isLoad r w h), by simpa using h⟩

@[simp] theorem mem_initReads {r : Nat} {a : SymAddr} :
    r ∈ T.initReads a ↔
      (T.acc r).isLoad ∧ (T.acc r).readFrom = none ∧ (T.acc r).addr = a := by
  rw [initReads, mem_select]
  constructor
  · rintro ⟨-, h⟩
    simpa [and_assoc] using h
  · intro h
    exact ⟨lt_length_of_isLoad h.1, by simpa [and_assoc] using h⟩

theorem before_sorted (e : Nat) : (T.before e).Pairwise (· < ·) :=
  List.pairwise_lt_range.filter _

/-- The last element of a sorted list is the greatest. -/
theorem le_of_getLast? {l : List Nat} (hl : l.Pairwise (· < ·)) {x y : Nat}
    (hy : l.getLast? = some y) (hx : x ∈ l) : x ≤ y := by
  obtain ⟨l', rfl⟩ := List.getLast?_eq_some_iff.mp hy
  rcases List.mem_append.mp hx with hx | hx
  · exact Nat.le_of_lt ((List.pairwise_append.mp hl).2.2 x hx y (by simp))
  · exact Nat.le_of_eq (by simpa using hx)

theorem poPredecessor_eq_some {a e : Nat} (h : T.poPredecessor e = some a) :
    a < e ∧ (T.acc a).pid = (T.acc e).pid ∧
      ∀ b, b < e → (T.acc b).pid = (T.acc e).pid → b ≤ a := by
  have ha := mem_before.mp (List.mem_of_getLast? h)
  exact ⟨ha.1, ha.2, fun b hb hpid =>
    le_of_getLast? (before_sorted e) h (mem_before.mpr ⟨hb, hpid⟩)⟩

theorem poPredecessor_eq_none {e : Nat} (h : T.poPredecessor e = none) {b : Nat}
    (hb : b < e) : (T.acc b).pid ≠ (T.acc e).pid := by
  intro hpid
  have hmem := mem_before.mpr ⟨hb, hpid⟩
  rw [List.getLast?_eq_none_iff.mp h] at hmem
  cases hmem

/-! ## Indices -/

/-- The thread of `e` up to `e`. -/
theorem before_concat_prefix {e n : Nat} (h : e < n) :
    (T.before e ++ [e]) <+:
      (List.range n).filter fun i => (T.acc i).pid = (T.acc e).pid := by
  have hrange : List.range (e + 1) <+: List.range n := by
    refine ⟨(List.range n).drop (e + 1), ?_⟩
    have htake : (List.range n).take (e + 1) = List.range (e + 1) := by
      rw [List.take_range, Nat.min_eq_left h]
    rw [← htake, List.take_append_drop]
  have hfilter := hrange.filter fun i => decide ((T.acc i).pid = (T.acc e).pid)
  rw [List.range_succ, List.filter_append] at hfilter
  simpa [before] using hfilter

theorem index_lt_index {a e : Nat} (hlt : a < e) (hpid : (T.acc a).pid = (T.acc e).pid) :
    T.index a < T.index e := by
  have hpre := (T.before_concat_prefix hlt).length_le
  rw [hpid, List.length_append] at hpre
  have hbefore : (T.before e).length =
      ((List.range e).filter fun i => (T.acc i).pid = (T.acc e).pid).length := rfl
  simp only [List.length_singleton] at hpre
  unfold index
  omega

theorem index_le_index {a e : Nat} (hpid : (T.acc a).pid = (T.acc e).pid) :
    T.index a ≤ T.index e ↔ a ≤ e := by
  constructor
  · intro hle
    by_contra hlt
    have := T.index_lt_index (Nat.lt_of_not_le hlt) hpid.symm
    omega
  · intro hle
    rcases Nat.eq_or_lt_of_le hle with rfl | hlt
    · exact Nat.le_refl _
    · exact Nat.le_of_lt (T.index_lt_index hlt hpid)

theorem index_pos (e : Nat) : 0 < T.index e := Nat.succ_pos _

/-- The thread holds each event at its index. -/
theorem thread_getElem? {e : Nat} (h : e < T.length) :
    (T.thread (T.acc e).pid)[T.index e - 1]? = some e := by
  obtain ⟨rest, hrest⟩ := T.before_concat_prefix h
  show ((List.range T.length).filter _)[(T.before e).length]? = some e
  rw [← hrest, List.append_assoc, List.getElem?_append_right (Nat.le_refl _), Nat.sub_self]
  rfl

/-- The last event of a thread has the length of the thread as its index. -/
theorem index_eq_length {p e : Nat} (h : (T.thread p).getLast? = some e) :
    T.index e = (T.thread p).length := by
  have hmem := mem_thread.mp (List.mem_of_getLast? h)
  have hnodup : (T.thread p).Nodup := (select_sorted _).imp fun hlt => Nat.ne_of_lt hlt
  have hget := T.thread_getElem? hmem.1
  rw [hmem.2] at hget
  rw [List.getLast?_eq_getElem?] at h
  have hlt : T.index e - 1 < (T.thread p).length :=
    (List.getElem?_eq_some_iff.mp hget).1
  have heq := (List.getElem?_inj hlt hnodup).mp (hget.trans h.symm)
  have := T.index_pos e
  omega

/-- Program order is the closure of its direct steps. -/
theorem ProgramOrder.path {edge : Nat → Nat → Prop}
    (hedge : ∀ a e, e < T.length → T.poPredecessor e = some a → edge a e) {a e : Nat}
    (h : T.ProgramOrder a e) : Relation.TransGen edge a e := by
  obtain ⟨hlt, hlen, hpid⟩ := h
  induction e using Nat.strong_induction_on with
  | _ e ih =>
    cases hpo : T.poPredecessor e with
    | none => exact absurd hpid (poPredecessor_eq_none hpo hlt)
    | some b =>
      obtain ⟨hbe, hbpid, hmax⟩ := poPredecessor_eq_some hpo
      have hstep := hedge b e hlen hpo
      rcases Nat.eq_or_lt_of_le (hmax a hlt hpid) with rfl | hab
      · exact .single hstep
      · have hpath := ih b hbe hab (Nat.lt_trans hbe hlen) (hpid.trans hbpid.symm)
        exact hpath.tail hstep

/-! ## One more event -/

variable (T) in
@[simp] theorem acc_concat_length (c : Access) : Trace.acc (T ++ [c]) T.length = c := by
  simp [acc]

theorem acc_concat_of_lt (c : Access) {e : Nat} (h : e < T.length) :
    Trace.acc (T ++ [c]) e = T.acc e := by
  unfold acc
  rw [List.getD_eq_getElem?_getD, List.getElem?_append_left h, List.getD_eq_getElem?_getD]

/-- A table grows at its end. -/
theorem select_concat (T : Trace) (c : Access) (P : Access → Bool) :
    Trace.select (T ++ [c]) P = T.select P ++ if P c then [T.length] else [] := by
  unfold select
  rw [List.length_append, List.length_singleton, List.range_succ, List.filter_append,
    List.filter_singleton, acc_concat_length]
  have hold : (List.range T.length).filter (fun i => P (Trace.acc (T ++ [c]) i)) =
      (List.range T.length).filter fun i => P (T.acc i) :=
    List.filter_congr fun i hi => by rw [acc_concat_of_lt c (List.mem_range.mp hi)]
  rw [hold]
  cases P c <;> rfl

theorem thread_concat (T : Trace) (c : Access) (p : Nat) :
    Trace.thread (T ++ [c]) p = T.thread p ++ if c.pid = p then [T.length] else [] := by
  simp [thread, select_concat]

theorem writes_concat (T : Trace) (c : Access) (p : Nat) (a : SymAddr) :
    Trace.writes (T ++ [c]) p a =
      T.writes p a ++ if c.isStore ∧ c.pid = p ∧ c.addr = a then [T.length] else [] := by
  simp [writes, select_concat, and_assoc]

theorem readers_concat (T : Trace) (c : Access) (w : Nat) :
    Trace.readers (T ++ [c]) w =
      T.readers w ++ if c.readFrom = some w then [T.length] else [] := by
  simp [readers, select_concat]

theorem initReads_concat (T : Trace) (c : Access) (a : SymAddr) :
    Trace.initReads (T ++ [c]) a =
      T.initReads a ++
        if c.isLoad ∧ c.readFrom = none ∧ c.addr = a then [T.length] else [] := by
  simp [initReads, select_concat, and_assoc]

theorem before_concat_of_lt (c : Access) {e : Nat} (h : e < T.length) :
    Trace.before (T ++ [c]) e = T.before e := by
  unfold before
  refine List.filter_congr fun i hi => ?_
  rw [acc_concat_of_lt c h, acc_concat_of_lt c (Nat.lt_trans (List.mem_range.mp hi) h)]

theorem before_concat_length (T : Trace) (c : Access) :
    Trace.before (T ++ [c]) T.length = T.thread c.pid := by
  unfold before thread select
  rw [acc_concat_length]
  refine List.filter_congr fun i hi => ?_
  rw [acc_concat_of_lt c (List.mem_range.mp hi)]

end Trace

end ViEqui.Saturation
