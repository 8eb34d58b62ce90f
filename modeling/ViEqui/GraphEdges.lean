import ViEqui.SaturatedGraph
import ViEqui.Lib.GetD

/-!
# Edges and the work queue of a saturated graph

What the operations on `ins`, `outs` and the queue do, up to the order of the
elements.  `Grows g g' newIn newOut work` says that `g'` is `g` with the edges
of `newIn` and `newOut` recorded and with the events of `work` in the queue.
`Grows.trans` and `Grows.foldl` compose it, so that each function of the source
has one lemma about its edges.
-/

namespace ViEqui.Saturation

open AssocMap VectorClock

/-! ## Vectors -/

@[simp] theorem length_enlarge {α : Type} (v : List α) (n : Nat) (d : α) :
    (enlarge v n d).length = max v.length n := by
  unfold enlarge
  rw [List.length_append, List.length_replicate]
  omega

@[simp] theorem getD_enlarge {α : Type} (v : List α) (n i : Nat) (d : α) :
    (enlarge v n d).getD i d = v.getD i d := by
  unfold enlarge
  rw [List.getD_eq_getElem?_getD, List.getD_eq_getElem?_getD, List.getElem?_append]
  split
  · rfl
  · next hlen =>
    rw [List.getElem?_eq_none (Nat.le_of_not_lt hlen), List.getElem?_replicate]
    split <;> rfl

@[simp] theorem length_pushAt {α : Type} (v : List (List α)) (i : Nat) (x : α) :
    (pushAt v i x).length = v.length := by
  unfold pushAt
  exact List.length_modify _ _ _

theorem getD_pushAt {α : Type} {v : List (List α)} {i : Nat} (x : α) (j : Nat)
    (h : i < v.length) :
    (pushAt v i x).getD j [] = v.getD j [] ++ if j = i then [x] else [] := by
  unfold pushAt
  rw [GetD.getD_modify_of_lt _ _ h]
  split
  · next hij => rw [hij]
  · simp

namespace SaturatedGraph

/-! ## Growth -/

/-- The queue holds each event once, and the set of queued events agrees with
it. -/
structure QueueOk (g : SaturatedGraph) : Prop where
  nodup : g.wqQueue.Nodup
  queued_iff : ∀ x, g.queued x = true ↔ x ∈ g.wqQueue

theorem QueueOk.congr {g g' : SaturatedGraph} (h : g.QueueOk) (hqueue : g'.wqQueue = g.wqQueue)
    (hset : g'.wqSet = g.wqSet) : g'.QueueOk where
  nodup := by
    rw [hqueue]
    exact h.nodup
  queued_iff x := by
    unfold queued
    rw [hqueue, hset]
    exact h.queued_iff x

/-- `g` without its edges and its queue. -/
def rest (g : SaturatedGraph) : SaturatedGraph :=
  { g with ins := [], outs := [], wqQueue := [], wqSet := [] }

/-- There is a slot for each of `n` events. -/
structure Slots (n : Nat) (g : SaturatedGraph) : Prop where
  ins : g.ins.length = n
  outs : g.outs.length = n
  queue : g.QueueOk

/-- More edges and more work. -/
structure Grows (n : Nat) (g g' : SaturatedGraph) (newIn newOut : Nat → Nat → Prop)
    (work : Nat → Prop) : Prop where
  rest_eq : g'.rest = g.rest
  slots : g'.Slots n
  mem_inOf : ∀ a e, a ∈ g'.inOf e ↔ a ∈ g.inOf e ∨ newIn a e
  mem_outOf : ∀ a e, e ∈ g'.outOf a ↔ e ∈ g.outOf a ∨ newOut a e
  mem_queue : ∀ x, x ∈ g'.wqQueue ↔ x ∈ g.wqQueue ∨ work x

variable {n : Nat} {g g' g'' : SaturatedGraph}

namespace Grows

variable {newIn newIn' newOut newOut' : Nat → Nat → Prop} {work work' : Nat → Prop}

theorem refl (h : g.Slots n) :
    Grows n g g (fun _ _ => False) (fun _ _ => False) fun _ => False where
  rest_eq := rfl
  slots := h
  mem_inOf _ _ := by simp
  mem_outOf _ _ := by simp
  mem_queue _ := by simp

theorem trans (h : Grows n g g' newIn newOut work)
    (h' : Grows n g' g'' newIn' newOut' work') :
    Grows n g g'' (fun a e => newIn a e ∨ newIn' a e) (fun a e => newOut a e ∨ newOut' a e)
      fun x => work x ∨ work' x where
  rest_eq := h'.rest_eq.trans h.rest_eq
  slots := h'.slots
  mem_inOf a e := by rw [h'.mem_inOf, h.mem_inOf, or_assoc]
  mem_outOf a e := by rw [h'.mem_outOf, h.mem_outOf, or_assoc]
  mem_queue x := by rw [h'.mem_queue, h.mem_queue, or_assoc]

theorem congr (h : Grows n g g' newIn newOut work)
    (hin : ∀ a e, newIn a e ↔ newIn' a e) (hout : ∀ a e, newOut a e ↔ newOut' a e)
    (hwork : ∀ x, work x ↔ work' x) : Grows n g g' newIn' newOut' work' where
  rest_eq := h.rest_eq
  slots := h.slots
  mem_inOf a e := by rw [h.mem_inOf, hin]
  mem_outOf a e := by rw [h.mem_outOf, hout]
  mem_queue x := by rw [h.mem_queue, hwork]

theorem events_eq (h : Grows n g g' newIn newOut work) : g'.events = g.events := by
  have heq := congrArg events h.rest_eq
  exact heq

/-- A loop whose steps grow the graph. -/
theorem foldl {α : Type} {f : SaturatedGraph → α → SaturatedGraph}
    {newIn newOut : α → Nat → Nat → Prop} {work : α → Nat → Prop} (l : List α)
    (hf : ∀ x ∈ l, ∀ g, g.Slots n → Grows n g (f g x) (newIn x) (newOut x) (work x))
    (h : g.Slots n) :
    Grows n g (l.foldl f g) (fun a e => ∃ x ∈ l, newIn x a e)
      (fun a e => ∃ x ∈ l, newOut x a e) fun y => ∃ x ∈ l, work x y := by
  induction l generalizing g with
  | nil => exact (refl h).congr (by simp) (by simp) (by simp)
  | cons x l ih =>
    have hhead := hf x List.mem_cons_self g h
    have htail := ih (fun y hy => hf y (List.mem_cons_of_mem _ hy)) hhead.slots
    exact (hhead.trans htail).congr (by simp) (by simp) (by simp)

end Grows

/-! ## The operations -/

theorem mem_inOf_recordEdge (h : g.Slots n) {src dst : Nat} (hdst : dst < n) (a e : Nat) :
    a ∈ (g.recordEdge src dst).inOf e ↔ a ∈ g.inOf e ∨ (a = src ∧ e = dst) := by
  show a ∈ (pushAt g.ins dst src).getD e [] ↔ _
  rw [getD_pushAt _ _ (h.ins ▸ hdst), List.mem_append]
  show a ∈ g.inOf e ∨ _ ↔ _
  by_cases he : e = dst <;> simp [he]

theorem mem_outOf_recordEdge (h : g.Slots n) {src dst : Nat} (hsrc : src < n) (a e : Nat) :
    e ∈ (g.recordEdge src dst).outOf a ↔ e ∈ g.outOf a ∨ (a = src ∧ e = dst) := by
  show e ∈ (pushAt g.outs src dst).getD a [] ↔ _
  rw [getD_pushAt _ _ (h.outs ▸ hsrc), List.mem_append]
  show e ∈ g.outOf a ∨ _ ↔ _
  by_cases ha : a = src <;> simp [ha]

theorem grows_recordEdge (h : g.Slots n) {src dst : Nat} (hsrc : src < n) (hdst : dst < n) :
    Grows n g (g.recordEdge src dst) (fun a e => a = src ∧ e = dst)
      (fun a e => a = src ∧ e = dst) fun _ => False where
  rest_eq := rfl
  slots := {
    ins := (length_pushAt _ _ _).trans h.ins
    outs := (length_pushAt _ _ _).trans h.outs
    queue := h.queue.congr rfl rfl }
  mem_inOf := mem_inOf_recordEdge h hdst
  mem_outOf := mem_outOf_recordEdge h hsrc
  mem_queue _ := by simp [recordEdge]

/-- The set after `wq_add` and `wq_add_first`. -/
theorem getD_set_enlarge (s : List Bool) (id x : Nat) :
    ((enlarge s (id + 1) false).set id true).getD x false = true ↔
      s.getD x false = true ∨ x = id := by
  rw [GetD.getD_set _ _ (by rw [length_enlarge]; omega), getD_enlarge]
  by_cases hx : x = id <;> simp [hx]

theorem grows_wqAdd (h : g.Slots n) (id : Nat) :
    Grows n g (g.wqAdd id) (fun _ _ => False) (fun _ _ => False) (· = id) := by
  unfold wqAdd
  split
  · next hq =>
    have hmem := (h.queue.queued_iff id).mp hq
    refine { Grows.refl h with mem_queue := fun x => ?_ }
    constructor
    · exact .inl
    · rintro (hx | rfl)
      · exact hx
      · exact hmem
  · next hq =>
    have hnot : id ∉ g.wqQueue := fun hmem => hq ((h.queue.queued_iff id).mpr hmem)
    exact {
      rest_eq := rfl
      slots := {
        ins := h.ins
        outs := h.outs
        queue := {
          nodup := List.nodup_append.mpr ⟨h.queue.nodup, List.nodup_singleton id, by
            intro x hx y hy heq
            rw [List.mem_singleton] at hy
            exact hnot (hy ▸ heq ▸ hx)⟩
          queued_iff := fun x => by
            show ((enlarge g.wqSet (id + 1) false).set id true).getD x false = true ↔ _
            rw [getD_set_enlarge, List.mem_append, List.mem_singleton]
            exact or_congr (h.queue.queued_iff x) Iff.rfl } }
      mem_inOf := fun _ _ => by simp [inOf]
      mem_outOf := fun _ _ => by simp [outOf]
      mem_queue := fun _ => by simp }

theorem grows_wqAddFirst (h : g.Slots n) (id : Nat) :
    Grows n g (g.wqAddFirst id) (fun _ _ => False) (fun _ _ => False) (· = id) := by
  unfold wqAddFirst
  split
  · next hq =>
    have hmem := (h.queue.queued_iff id).mp hq
    refine { Grows.refl h with mem_queue := fun x => ?_ }
    constructor
    · exact .inl
    · rintro (hx | rfl)
      · exact hx
      · exact hmem
  · next hq =>
    have hnot : id ∉ g.wqQueue := fun hmem => hq ((h.queue.queued_iff id).mpr hmem)
    exact {
      rest_eq := rfl
      slots := {
        ins := h.ins
        outs := h.outs
        queue := {
          nodup := List.nodup_cons.mpr ⟨hnot, h.queue.nodup⟩
          queued_iff := fun x => by
            show ((enlarge g.wqSet (id + 1) false).set id true).getD x false = true ↔ _
            rw [getD_set_enlarge, List.mem_cons, or_comm]
            exact or_congr Iff.rfl (h.queue.queued_iff x) } }
      mem_inOf := fun _ _ => by simp [inOf]
      mem_outOf := fun _ _ => by simp [outOf]
      mem_queue := fun _ => by rw [List.mem_cons, or_comm] }

theorem grows_addEdgeInternal (h : g.Slots n) {src dst : Nat} (hsrc : src < n)
    (hdst : dst < n) :
    Grows n g (g.addEdgeInternal src dst) (fun a e => a = src ∧ e = dst)
      (fun a e => a = src ∧ e = dst) (· = dst) := by
  have hedge := grows_recordEdge h hsrc hdst
  exact (hedge.trans (grows_wqAdd hedge.slots dst)).congr (by simp) (by simp) (by simp)

theorem grows_addEdges (h : g.Slots n) {edges : List (Nat × Nat)}
    (hlt : ∀ p ∈ edges, p.1 < n ∧ p.2 < n) :
    Grows n g (g.addEdges edges) (fun a e => (a, e) ∈ edges) (fun a e => (a, e) ∈ edges)
      fun x => ∃ a, (a, x) ∈ edges := by
  have hfold := Grows.foldl (f := fun g p => g.addEdgeInternal p.1 p.2) edges
    (fun p hp g hg => grows_addEdgeInternal hg (hlt p hp).1 (hlt p hp).2) h
  refine hfold.congr ?_ ?_ ?_
  · intro a e
    constructor
    · rintro ⟨p, hp, rfl, rfl⟩
      exact hp
    · intro hp
      exact ⟨(a, e), hp, rfl, rfl⟩
  · intro a e
    constructor
    · rintro ⟨p, hp, rfl, rfl⟩
      exact hp
    · intro hp
      exact ⟨(a, e), hp, rfl, rfl⟩
  · intro x
    constructor
    · rintro ⟨p, hp, rfl⟩
      exact ⟨p.1, hp⟩
    · rintro ⟨a, hp⟩
      exact ⟨(a, x), hp, rfl⟩

/-- A loop of `wq_add`. -/
theorem grows_foldl_wqAdd (h : g.Slots n) (l : List Nat) :
    Grows n g (l.foldl wqAdd g) (fun _ _ => False) (fun _ _ => False) (· ∈ l) := by
  have hfold := Grows.foldl (f := wqAdd) l (fun x _ g hg => grows_wqAdd hg x) h
  exact hfold.congr (by simp) (by simp) (by simp)

theorem grows_addSuccessorsToWq (h : g.Slots n) (id : Nat) (e : Event) :
    Grows n g (g.addSuccessorsToWq id e) (fun _ _ => False) (fun _ _ => False)
      fun x => (e.isStore ∧ x ∈ e.readers) ∨ x ∈ g.outOf id := by
  unfold addSuccessorsToWq
  cases e.isStore with
  | true =>
    have hreaders := grows_foldl_wqAdd h e.readers
    refine (hreaders.trans (grows_foldl_wqAdd hreaders.slots _)).congr (by simp) (by simp) ?_
    intro x
    simp [hreaders.mem_outOf]
  | false => exact (grows_foldl_wqAdd h _).congr (by simp) (by simp) (by simp)

/-- The front element leaves the queue. -/
theorem slots_wqPop (h : g.Slots n) {id : Nat} {rest : List Nat}
    (hqueue : g.wqQueue = id :: rest) : (g.wqPop id rest).Slots n where
  ins := h.ins
  outs := h.outs
  queue := by
    have hnodup := h.queue.nodup
    rw [hqueue, List.nodup_cons] at hnodup
    refine ⟨hnodup.2, fun x => ?_⟩
    have hold := h.queue.queued_iff x
    rw [hqueue, List.mem_cons] at hold
    show (g.wqSet.set id false).getD x false = true ↔ x ∈ rest
    by_cases hx : x = id
    · subst hx
      rw [List.getD_eq_getElem?_getD, List.getElem?_set_self']
      simp only [hnodup.1, iff_false]
      cases g.wqSet[x]? <;> simp
    · rw [List.getD_eq_getElem?_getD, List.getElem?_set_ne (Ne.symm hx),
        ← List.getD_eq_getElem?_getD]
      exact hold.trans (or_iff_right hx)

/-- The edges from several sources to one event. -/
theorem grows_foldl_recordEdge (h : g.Slots n) {id : Nat} (hid : id < n) {l : List Nat}
    (hlt : ∀ r ∈ l, r < n) :
    Grows n g (l.foldl (fun g r => g.recordEdge r id) g) (fun a e => a ∈ l ∧ e = id)
      (fun a e => a ∈ l ∧ e = id) fun _ => False := by
  have hfold := Grows.foldl (f := fun g r => g.recordEdge r id) l
    (fun r hr g hg => grows_recordEdge hg (hlt r hr) hid) h
  exact hfold.congr (by simp) (by simp) (by simp)

end SaturatedGraph

end ViEqui.Saturation
