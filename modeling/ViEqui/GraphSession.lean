import ViEqui.Saturation

/-!
# Sessions with a saturated graph

A graph that events and edges are added to, and that is saturated in between.

* `SessionInv`: the tables, the invariant of saturation up to the last
  `saturate`, and the queue.
* `SessionInv.inserted`, `SessionInv.addEdge`: one addition.
* `saturate_exact`: a graph built by `add_event` and saturated once.
-/

namespace ViEqui.Saturation

open AssocMap VectorClock Relation
open Rfsc (SymAddr)
open SaturatedGraph

variable {T : Trace} {extra extra' : Nat → Nat → Prop} {u : Nat} {g g' : SaturatedGraph}

/-! ## Growth of the trace -/

namespace Trace

theorem index_concat_of_lt (c : Access) {e : Nat} (h : e < T.length) :
    Trace.index (T ++ [c]) e = T.index e := by
  unfold index
  rw [before_concat_of_lt c h]

theorem index_le_length {e : Nat} (h : e < T.length) :
    T.index e ≤ (T.thread (T.acc e).pid).length := by
  have hlt := (List.getElem?_eq_some_iff.mp (T.thread_getElem? h)).1
  have := T.index_pos e
  omega

theorem Forced.mono {a e : Nat} (h : T.Forced extra a e)
    (hextra : ∀ a e, extra a e → extra' a e) : T.Forced extra' a e := by
  induction h with
  | po h => exact .po h
  | readFrom h => exact .readFrom h
  | after h => exact .after h
  | edge h => exact .edge (hextra _ _ h)
  | trans _ _ ih₁ ih₂ => exact .trans ih₁ ih₂
  | coherence hload hrf hs hw hr _ ih => exact .coherence hload hrf hs hw hr ih
  | fromRead hload hrf hs hw hr _ ih => exact .fromRead hload hrf hs hw hr ih
  | initial hload hrf hs hr => exact .initial hload hrf hs hr

theorem StoreTo.concat (c : Access) {s r : Nat} (h : T.StoreTo s r) (hr : r < T.length) :
    Trace.StoreTo (T ++ [c]) s r := by
  unfold StoreTo
  rw [acc_concat_of_lt c h.lt_length, acc_concat_of_lt c hr]
  exact h

/-- What is forced stays forced when an event is added. -/
theorem Forced.concat (hT : T.Wf) (c : Access) {a e : Nat} (h : T.Forced extra a e) :
    Trace.Forced (T ++ [c]) extra a e := by
  have hread : ∀ {r w}, (T.acc r).readFrom = some w →
      (Trace.acc (T ++ [c]) r).readFrom = some w := by
    intro r w hrf
    rw [acc_concat_of_lt c (lt_length_of_isLoad (hT.isLoad r w hrf))]
    exact hrf
  have hacc : ∀ {r}, (T.acc r).isLoad → Trace.acc (T ++ [c]) r = T.acc r := fun hload =>
    acc_concat_of_lt c (lt_length_of_isLoad hload)
  induction h with
  | po h =>
    refine .po ⟨h.1, ?_, ?_⟩
    · rw [List.length_append]
      exact Nat.lt_of_lt_of_le h.2.1 (Nat.le_add_right _ _)
    · rw [acc_concat_of_lt c (Nat.lt_trans h.1 h.2.1), acc_concat_of_lt c h.2.1]
      exact h.2.2
  | readFrom hrf => exact .readFrom (hread hrf)
  | after ha =>
    refine .after ?_
    rw [acc_concat_of_lt c (lt_length_of_after ha)]
    exact ha
  | edge ha => exact .edge ha
  | trans _ _ ih₁ ih₂ => exact .trans ih₁ ih₂
  | coherence hload hrf hs hw hr _ ih =>
    exact .coherence ((hacc hload).symm ▸ hload) (hread hrf)
      (hs.concat c (lt_length_of_isLoad hload)) hw hr ih
  | fromRead hload hrf hs hw hr _ ih =>
    exact .fromRead ((hacc hload).symm ▸ hload) (hread hrf)
      (hs.concat c (lt_length_of_isLoad hload)) hw hr ih
  | initial hload hrf hs hr =>
    exact .initial ((hacc hload).symm ▸ hload) ((hacc hload).symm ▸ hrf)
      (hs.concat c (lt_length_of_isLoad hload)) hr

end Trace

theorem Trace.InitialEdge.forced {a e : Nat} (h : T.InitialEdge a e) :
    T.Forced extra a e := by
  rcases h with h | ⟨hread, hfirst, hne⟩
  · exact .after h
  · obtain ⟨hload, hrf, haddr⟩ := Trace.mem_initReads.mp hread
    exact .initial hload hrf ⟨hfirst.isStore, haddr.symm⟩ (Ne.symm hne)

/-! ## The invariant -/

/-- The invariant between two calls. -/
structure SessionInv (T : Trace) (extra : Nat → Nat → Prop) (g : SaturatedGraph) : Prop where
  built : Built T g
  inv : Inv T extra g.saturatedUntil g
  settled : ∀ e < T.length, e ∉ g.wqQueue → g.Settled e
  until_le : g.saturatedUntil ≤ T.length
  lt_until : ∀ a < T.length, ∀ e < T.length, T.index a ≤ g.clk e (T.acc a).pid →
    a < g.saturatedUntil

theorem sessionInv_empty : SessionInv [] (fun _ _ => False) {} where
  built := built_empty
  inv := {
    toTables := built_empty.toTables
    slots := built_empty.slots
    vclocks := rfl
    mem_inOf_lt := fun a e h => by simp [inOf] at h
    mem_outOf := fun a e => by simp [inOf, outOf]
    queue_lt := fun x h => by cases h
    forced := fun a e h => by simp [inOf] at h
    initial := fun a e h => absurd h.dst_lt (Nat.not_lt_zero _)
    extra_mem := fun _ _ h => h.elim
    sound := fun e p h => by simp [clk, clockOf] at h
    le_fresh := fun e h => absurd h (Nat.not_lt_zero _)
    saturated := fun e h => absurd h (Nat.not_lt_zero _) }
  settled e h := absurd h (Nat.not_lt_zero _)
  until_le := Nat.le_refl _
  lt_until a h := absurd h (Nat.not_lt_zero _)

theorem Inv.lt_of_clk_pos (h : Inv T extra u g) {e p : Nat} (hpos : 0 < g.clk e p) :
    e < T.length := by
  by_contra hge
  unfold clk clockOf at hpos
  rw [List.getD_eq_getElem?_getD, List.getElem?_eq_none (by rw [h.vclocks]; omega)] at hpos
  cases hpos

/-! ## One more event -/

section Inserted

variable {c : Access} (h : Inv T extra u g) (hi : Inserted T c g g')

include hi in
theorem Inserted.clockOf_eq (e : Nat) : g'.clockOf e = g.clockOf e := by
  unfold clockOf
  rw [hi.vclocks, getD_concat]
  split
  · next he =>
    rw [List.getD_eq_getElem?_getD, List.getElem?_eq_none (Nat.le_of_eq he.symm)]
    rfl
  · rfl

include hi in
theorem Inserted.clk_eq (e p : Nat) : g'.clk e p = g.clk e p := by
  unfold clk
  rw [hi.clockOf_eq]

include h

/-- A clock counts earlier events only. -/
theorem Inv.lt_of_index_concat_le {a e : Nat} (hT : T.Wf) (ha : a < (T ++ [c]).length)
    (hle : Trace.index (T ++ [c]) a ≤ g.clk e (Trace.acc (T ++ [c]) a).pid) :
    e < T.length ∧ a < T.length ∧ T.index a ≤ g.clk e (T.acc a).pid := by
  have hpos := Nat.lt_of_lt_of_le (Trace.index_pos (T := T ++ [c]) a) hle
  have he := h.lt_of_clk_pos hpos
  have halen : a < T.length := by
    by_contra hge
    obtain rfl : a = T.length := by
      rw [List.length_append, List.length_singleton] at ha
      omega
    rw [Trace.acc_concat_length] at hle hpos
    obtain ⟨b, hpath, hpid, hb⟩ := h.seenFrom_clockOf e c.pid hpos
    have hble := Trace.index_le_length (h.lt_of_path hT he hpath)
    have hindex : Trace.index (T ++ [c]) T.length = (T.thread c.pid).length + 1 := by
      unfold Trace.index
      rw [Trace.before_concat_length]
    rw [hpid, hb] at hble
    change get (g.clockOf e) c.pid ≤ _ at hble
    change _ ≤ get (g.clockOf e) c.pid at hle
    omega
  rw [Trace.index_concat_of_lt c halen, Trace.acc_concat_of_lt c halen] at hle
  exact ⟨he, halen, hle⟩

include hi

/-- The edges to an earlier event. -/
theorem Inv.edge_inserted (hb : Tables (T ++ [c]) g') {a e : Nat}
    (he : e < T.length) : g'.Edge a e ↔ g.Edge a e ∨ ReadEdge T c a e := by
  rw [hb.edge_iff, h.edge_iff, hi.mem_inOf, Trace.acc_concat_of_lt c he]
  have hpo := Trace.poPredecessor_concat T c a e
  have hne : e ≠ T.length := Nat.ne_of_lt he
  rw [hpo]
  unfold NewEdge StoreEdge
  simp only [hne, false_and, and_false, false_or, or_false, or_assoc]

theorem Inv.edge_mono_inserted (hT : T.Wf) (hb : Tables (T ++ [c]) g') {a e : Nat}
    (hedge : g.Edge a e) : g'.Edge a e :=
  (h.edge_inserted hi hb (h.edge_lt hT hedge).2).mpr (.inl hedge)

omit hi in
/-- An earlier event keeps its process and index. -/
theorem Inv.ev_inserted (hb : Tables (T ++ [c]) g') {e : Nat} (he : e < T.length) :
    (g'.ev e).pid = (g.ev e).pid ∧ (g'.ev e).index = (g.ev e).index := by
  have he' : e < (T ++ [c]).length := by
    rw [List.length_append]
    omega
  rw [hb.ev he', h.ev he]
  unfold Trace.eventOf
  rw [Trace.acc_concat_of_lt c he, Trace.index_concat_of_lt c he]
  exact ⟨rfl, rfl⟩

theorem Inv.fresh_le_inserted (hT : T.Wf) (hb : Tables (T ++ [c]) g') {e : Nat}
    (he : e < T.length) (p : Nat) : get (g.fresh e) p ≤ get (g'.fresh e) p := by
  have hev := h.ev_inserted hb he
  refine fresh_mono hev.1 hev.2 (fun a hedge => ⟨?_, fun p => ?_⟩) p
  · exact h.edge_mono_inserted hi hT hb hedge
  · rw [hi.clk_eq]

/-- The invariant of saturation with one more event. -/
theorem Inv.inserted (hT : T.Wf) (hT' : Trace.Wf (T ++ [c])) (hb : Built (T ++ [c]) g')
    (hu : u ≤ T.length) : Inv (T ++ [c]) extra u g' := by
  have hlen : (T ++ [c]).length = T.length + 1 := by simp
  have hpath : ∀ {a e}, TransGen g.Edge a e → TransGen g'.Edge a e := fun hpath =>
    TransGen.mono (fun _ _ hedge => h.edge_mono_inserted hi hT hb.toTables hedge) _ _ hpath
  have hinitial : ∀ a e, NewEdge T c a e → Trace.InitialEdge (T ++ [c]) a e := fun a e hnew =>
    (Trace.initialEdge_concat T c a e).mpr (.inr hnew)
  -- a store that a clock of the new trace sees was there before
  have hvisible : ∀ e pe, LastVisible (T ++ [c]) (g'.clockOf e) e pe →
      e < T.length ∧ pe < T.length ∧ LastVisible T (g.clockOf e) e pe := by
    intro e pe hpe
    rw [hi.clockOf_eq] at hpe
    obtain ⟨he, hpelt, hindex⟩ :=
      h.lt_of_index_concat_le hT hpe.storeTo.lt_length hpe.index_le
    refine ⟨he, hpelt, ⟨⟨?_, hpe.ne, hindex⟩, fun s hs hpid => ?_⟩⟩
    · have hstore := hpe.storeTo
      unfold Trace.StoreTo at hstore ⊢
      rwa [Trace.acc_concat_of_lt c hpelt, Trace.acc_concat_of_lt c he] at hstore
    · have hslt := hs.storeTo.lt_length
      refine hpe.le s ⟨hs.storeTo.concat c he, hs.ne, ?_⟩ ?_
      · rw [Trace.index_concat_of_lt c hslt, Trace.acc_concat_of_lt c hslt]
        exact hs.index_le
      · rw [Trace.acc_concat_of_lt c hslt, Trace.acc_concat_of_lt c hpelt]
        exact hpid
  exact {
    toTables := hb.toTables
    slots := hb.slots
    vclocks := by
      rw [hi.vclocks, List.length_append, List.length_singleton, h.vclocks, hlen]
    mem_inOf_lt := fun a e ha => by
      rcases (hi.mem_inOf a e).mp ha with ha | ha
      · have := h.mem_inOf_lt a e ha
        omega
      · exact (hinitial a e ha).lt_length hT'
    mem_outOf := fun a e => by
      rw [hi.mem_outOf, hi.mem_inOf, h.mem_outOf, Trace.poPredecessor_concat]
      constructor
      · rintro ((h | h) | h | h)
        · exact .inl (.inl h)
        · exact .inr (.inl h)
        · exact .inr (.inr h)
        · exact .inl (.inr h)
      · rintro ((h | h) | h | h)
        · exact .inl (.inl h)
        · exact .inr (.inr h)
        · exact .inl (.inr h)
        · exact .inr (.inl h)
    queue_lt := fun x hx => by
      rcases (hi.mem_queue x).mp hx with hx | hx | hx
      · have := h.queue_lt x hx
        omega
      · have := hx.dst_lt
        omega
      · omega
    forced := fun a e ha => by
      rcases (hi.mem_inOf a e).mp ha with ha | ha
      · exact (h.forced a e ha).concat hT c
      · exact (hinitial a e ha).forced
    initial := fun a e ha => by
      rcases (Trace.initialEdge_concat T c a e).mp ha with ha | ha
      · exact (hi.mem_inOf a e).mpr (.inl (h.initial a e ha))
      · exact (hi.mem_inOf a e).mpr (.inr ha)
    extra_mem := fun a e ha => (hi.mem_inOf a e).mpr (.inl (h.extra_mem a e ha))
    sound := fun e p hpos => by
      rw [hi.clk_eq] at hpos ⊢
      obtain ⟨a, ha, hpid, hindex⟩ := h.sound e p hpos
      have halt := h.lt_of_path hT (h.lt_of_clk_pos hpos) ha
      refine ⟨a, ?_, ?_, ?_⟩
      · exact ReflTransGen.mono
          (fun _ _ hedge => h.edge_mono_inserted hi hT hb.toTables hedge) _ _ ha
      · show (Trace.acc (T ++ [c]) a).pid = p
        rw [Trace.acc_concat_of_lt c halt]
        exact hpid
      · rw [Trace.index_concat_of_lt c halt]
        exact hindex
    le_fresh := fun e _ p => by
      rcases Nat.lt_or_ge e T.length with he | he
      · rw [hi.clk_eq]
        exact Nat.le_trans (h.le_fresh e he p) (h.fresh_le_inserted hi hT hb.toTables he p)
      · have hzero : g'.clk e p = 0 := by
          by_contra hne
          rw [hi.clk_eq] at hne
          have := h.lt_of_clk_pos (Nat.pos_of_ne_zero hne)
          omega
        rw [hzero]
        exact Nat.zero_le _
    saturated := fun e _ => by
      constructor
      · intro hstore pe hpe r hr hrf hne
        obtain ⟨he, hpelt, hlast⟩ := hvisible e pe hpe
        rw [Trace.acc_concat_of_lt c he] at hstore
        rw [Trace.acc_concat_of_lt c (Nat.lt_of_lt_of_le hr hu)] at hrf
        exact hpath ((h.saturated e he).store hstore pe hlast r hr hrf hne)
      · intro hload pe hpe
        obtain ⟨he, hpelt, hlast⟩ := hvisible e pe hpe
        rw [Trace.acc_concat_of_lt c he] at hload ⊢
        obtain ⟨w, hw, hpew⟩ := (h.saturated e he).load hload pe hlast
        exact ⟨w, hw, hpew.imp_right hpath⟩ }

end Inserted

/-- One more event. -/
theorem SessionInv.inserted {c : Access} (h : SessionInv T extra g) (hT : T.Wf)
    (hT' : Trace.Wf (T ++ [c])) (hb : Built (T ++ [c]) g') (hi : Inserted T c g g') :
    SessionInv (T ++ [c]) extra g' where
  built := hb
  inv := by
    rw [hi.saturatedUntil]
    exact h.inv.inserted hi hT hT' hb h.until_le
  settled e he hqueue := by
    rw [List.length_append, List.length_singleton] at he
    have hnew : e ≠ T.length := fun heq => hqueue ((hi.mem_queue e).mpr (.inr (.inr heq)))
    have helt : e < T.length := by omega
    have hold := h.settled e helt fun hmem => hqueue ((hi.mem_queue e).mpr (.inl hmem))
    have hedge : ∀ a, g'.Edge a e ↔ g.Edge a e := by
      intro a
      rw [h.inv.edge_inserted hi hb.toTables helt]
      refine or_iff_left fun hread => hqueue ((hi.mem_queue e).mpr (.inr (.inl ?_)))
      exact hread.2.2.1 ▸ hread
    have hev := h.inv.ev_inserted hb.toTables helt
    constructor
    · intro p
      rw [hi.clk_eq, hold.eq_fresh]
      refine Nat.le_antisymm (h.inv.fresh_le_inserted hi hT hb.toTables helt p) ?_
      refine fresh_mono hev.1.symm hev.2.symm (fun a ha => ⟨(hedge a).mp ha, fun p => ?_⟩) p
      rw [hi.clk_eq]
    · intro a ha
      obtain ⟨p, hp⟩ := hold.ne_pred a ((hedge a).mp ha)
      refine ⟨p, ?_⟩
      rw [hi.clk_eq, hi.clk_eq]
      exact hp
  until_le := by
    rw [hi.saturatedUntil, List.length_append]
    exact Nat.le_trans h.until_le (Nat.le_add_right _ _)
  lt_until a ha e _ hle := by
    rw [hi.clk_eq] at hle
    obtain ⟨he, halt, hindex⟩ := h.inv.lt_of_index_concat_le hT ha hle
    rw [hi.saturatedUntil]
    exact h.lt_until a halt e he hindex

/-! ## More edges -/

section Grows

variable {n : Nat} {new : Nat → Nat → Prop} {work : Nat → Prop} (hg : Grows n g g' new new work)

include hg

theorem Grows.vclocks_eq : g'.vclocks = g.vclocks := by
  have heq := congrArg vclocks hg.rest_eq
  exact heq

theorem Grows.clk_eq (e p : Nat) : g'.clk e p = g.clk e p := by
  unfold clk clockOf
  rw [Grows.vclocks_eq hg]

theorem Grows.ev_eq (e : Nat) : g'.ev e = g.ev e := by
  unfold ev
  rw [hg.events_eq]

theorem Grows.edge_iff (a e : Nat) : g'.Edge a e ↔ g.Edge a e ∨ new a e := by
  unfold Edge preds
  rw [Grows.ev_eq hg, List.mem_append, List.mem_append (t := g.inOf e), hg.mem_inOf, or_assoc]

theorem Grows.path_mono {a e : Nat} (h : TransGen g.Edge a e) : TransGen g'.Edge a e :=
  TransGen.mono (fun a e hedge => (Grows.edge_iff hg a e).mpr (.inl hedge)) _ _ h

theorem Grows.static_eq : g'.static = g.static := by
  have heq := congrArg (fun r : SaturatedGraph => { r with vclocks := [] }) hg.rest_eq
  exact heq

theorem Tables.grows (h : Tables T g) : Tables T g' where
  events := hg.events_eq.trans h.events
  threads p := by
    have heq := congrArg eventsByPid hg.rest_eq
    exact (congrArg (fun l : List (List Nat) => l.getD p []) heq).trans (h.threads p)
  writes p a := by
    have heq := congrArg writesByProcessAndAddress hg.rest_eq
    exact (congrArg (fun l : List (Map SymAddr (List Nat)) => getD (l.getD p []) a []) heq).trans
      (h.writes p a)

omit hg in
/-- The invariant of saturation with more edges. -/
theorem Inv.grows (hg : Grows T.length g g' new new work) (h : Inv T extra u g) (hlt : ∀ a e, new a e → a < T.length ∧ e < T.length)
    (hwork : ∀ x, work x → x < T.length) (hforced : ∀ a e, new a e → T.Forced extra' a e)
    (hextra : ∀ a e, extra a e → extra' a e)
    (hextra' : ∀ a e, extra' a e → extra a e ∨ new a e) : Inv T extra' u g' where
  toTables := Tables.grows hg h.toTables
  slots := hg.slots
  vclocks := by rw [Grows.vclocks_eq hg, h.vclocks]
  mem_inOf_lt a e ha := by
    rcases (hg.mem_inOf a e).mp ha with ha | ha
    · exact h.mem_inOf_lt a e ha
    · exact hlt a e ha
  mem_outOf a e := by
    rw [hg.mem_outOf, hg.mem_inOf, h.mem_outOf, or_right_comm]
  queue_lt x hx := by
    rcases (hg.mem_queue x).mp hx with hx | hx
    · exact h.queue_lt x hx
    · exact hwork x hx
  forced a e ha := by
    rcases (hg.mem_inOf a e).mp ha with ha | ha
    · exact (h.forced a e ha).mono hextra
    · exact hforced a e ha
  initial a e ha := (hg.mem_inOf a e).mpr (.inl (h.initial a e ha))
  extra_mem a e ha := by
    rcases hextra' a e ha with ha | ha
    · exact (hg.mem_inOf a e).mpr (.inl (h.extra_mem a e ha))
    · exact (hg.mem_inOf a e).mpr (.inr ha)
  sound := by
    intro e p hpos
    rw [Grows.clk_eq hg] at hpos ⊢
    obtain ⟨a, hpath, ha⟩ := h.sound e p hpos
    exact ⟨a, ReflTransGen.mono
      (fun a e hedge => (Grows.edge_iff hg a e).mpr (.inl hedge)) _ _ hpath, ha⟩
  le_fresh e he p := by
    rw [Grows.clk_eq hg]
    refine Nat.le_trans (h.le_fresh e he p) (fresh_mono ?_ ?_ (fun a hedge => ⟨?_, fun p => ?_⟩) p)
    · rw [Grows.ev_eq hg]
    · rw [Grows.ev_eq hg]
    · exact (Grows.edge_iff hg a e).mpr (.inl hedge)
    · rw [Grows.clk_eq hg]
  saturated e he := by
    have hclock : g'.clockOf e = g.clockOf e := by
      unfold clockOf
      rw [Grows.vclocks_eq hg]
    have hold := h.saturated e he
    constructor
    · rw [hclock]
      exact fun hstore pe hpe r hr hrf hne =>
        Grows.path_mono hg (hold.store hstore pe hpe r hr hrf hne)
    · rw [hclock]
      intro hload pe hpe
      obtain ⟨w, hw, hpew⟩ := hold.load hload pe hpe
      exact ⟨w, hw, hpew.imp_right (Grows.path_mono hg)⟩

/-- An event without a new edge stays settled. -/
theorem Settled.grows {e : Nat} (h : g.Settled e) (hnew : ∀ a, ¬ new a e) : g'.Settled e := by
  have hedge : ∀ a, g'.Edge a e ↔ g.Edge a e := by
    intro a
    rw [Grows.edge_iff hg]
    exact or_iff_left (hnew a)
  constructor
  · intro p
    rw [Grows.clk_eq hg, h.eq_fresh]
    refine Nat.le_antisymm ?_ ?_
    · refine fresh_mono (by rw [Grows.ev_eq hg]) (by rw [Grows.ev_eq hg])
        (fun a ha => ⟨(hedge a).mpr ha, fun p => ?_⟩) p
      rw [Grows.clk_eq hg]
    · refine fresh_mono (by rw [Grows.ev_eq hg]) (by rw [Grows.ev_eq hg])
        (fun a ha => ⟨(hedge a).mp ha, fun p => ?_⟩) p
      rw [Grows.clk_eq hg]
  · intro a ha
    obtain ⟨p, hp⟩ := h.ne_pred a ((hedge a).mp ha)
    refine ⟨p, ?_⟩
    rw [Grows.clk_eq hg, Grows.clk_eq hg]
    exact hp

end Grows

/-- The tables in a graph with the same fields. -/
theorem Built.congr (h : Built T g) (hslots : g'.Slots T.length)
    (hstatic : { g'.static with saturatedUntil := 0 } = { g.static with saturatedUntil := 0 }) :
    Built T g' where
  events := by
    have heq := congrArg events hstatic
    exact heq.trans h.events
  threads p := by
    have heq := congrArg eventsByPid hstatic
    exact (congrArg (fun l : List (List Nat) => l.getD p []) heq).trans (h.threads p)
  writes p a := by
    have heq := congrArg writesByProcessAndAddress hstatic
    exact (congrArg (fun l : List (Map SymAddr (List Nat)) => getD (l.getD p []) a []) heq).trans
      (h.writes p a)
  ids i hi := by
    have heq := congrArg extidToId hstatic
    exact (congrArg (fun m : Map IID Nat => find? m (T.acc i).extId) heq).trans (h.ids i hi)
  firstWrites_wf a := by
    have heq := congrArg writesByAddress hstatic
    exact (congrArg (fun t : Map SymAddr (Map Nat Nat) => Wf (getD t a [])) heq).mpr
      (h.firstWrites_wf a)
  firstWrites a p := by
    have heq := congrArg writesByAddress hstatic
    exact (congrArg (fun t : Map SymAddr (Map Nat Nat) => find? (getD t a []) p) heq).trans
      (h.firstWrites a p)
  initReads a := by
    have heq := congrArg readsFromInit hstatic
    exact (congrArg (fun t : Map SymAddr (List Nat) => getD t a []) heq).trans (h.initReads a)
  slots := hslots

/-- One more edge. -/
theorem SessionInv.addEdge (h : SessionInv T extra g) {s d : Nat} (hs : s < T.length)
    (hd : d < T.length) :
    SessionInv T (fun a e => extra a e ∨ (a = s ∧ e = d)) (g.addEdgeInternal s d) := by
  have hg := grows_addEdgeInternal h.built.slots hs hd
  have huntil : (g.addEdgeInternal s d).saturatedUntil = g.saturatedUntil := by
    have heq := congrArg saturatedUntil hg.rest_eq
    exact heq
  refine ⟨?_, ?_, ?_, ?_, ?_⟩
  · refine h.built.congr hg.slots ?_
    rw [Grows.static_eq hg]
  · rw [huntil]
    refine Inv.grows hg h.inv ?_ ?_ (fun a e ha => .edge (.inr ha)) (fun a e ha => .inl ha)
      (fun a e ha => ha)
    · rintro a e ⟨rfl, rfl⟩
      exact ⟨hs, hd⟩
    · rintro x rfl
      exact hd
  · intro e he hqueue
    have hold := h.settled e he fun hmem => hqueue ((hg.mem_queue e).mpr (.inl hmem))
    exact Settled.grows hg hold fun a ha => hqueue ((hg.mem_queue e).mpr (.inr ha.2))
  · rw [huntil]
    exact h.until_le
  · intro a ha e he hle
    rw [Grows.clk_eq hg] at hle
    rw [huntil]
    exact h.lt_until a ha e he hle

/-! ## One `saturate` -/

/-- The invariant for more readers. -/
theorem Inv.of_readers {u' : Nat} (h : Inv T extra u g)
    (hstore : ∀ e < T.length, (T.acc e).isStore → ∀ pe, LastVisible T (g.clockOf e) e pe →
      ∀ r < u', (T.acc r).readFrom = some pe → r ≠ e → TransGen g.Edge r e) :
    Inv T extra u' g :=
  { h with saturated := fun e he => ⟨hstore e he, (h.saturated e he).load⟩ }

theorem Inv.setUntil (h : Inv T extra u g) (n : Nat) :
    Inv T extra u { g with saturatedUntil := n } where
  toTables := ⟨h.events, h.threads, h.writes⟩
  slots := ⟨h.slots.ins, h.slots.outs, h.slots.queue.congr rfl rfl⟩
  vclocks := h.vclocks
  mem_inOf_lt := h.mem_inOf_lt
  mem_outOf := h.mem_outOf
  queue_lt := h.queue_lt
  forced := h.forced
  initial := h.initial
  extra_mem := h.extra_mem
  sound := h.sound
  le_fresh := h.le_fresh
  saturated e he := ⟨(h.saturated e he).store, (h.saturated e he).load⟩

/-- The graph that the main loop starts from. -/
structure Ready (T : Trace) (extra : Nat → Nat → Prop) (g g₁ : SaturatedGraph) : Prop where
  inv : Inv T extra T.length g₁
  settled : ∀ e < T.length, e ∉ g₁.wqQueue → g₁.Settled e
  saturatedUntil : g₁.saturatedUntil = T.length
  static_eq : { g₁.static with saturatedUntil := 0 } = { g.static with saturatedUntil := 0 }

/-- The graph after a positive verdict. -/
structure Done (T : Trace) (extra : Nat → Nat → Prop) (g : SaturatedGraph) : Prop where
  session : SessionInv T extra g
  inv : Inv T extra T.length g
  settled : ∀ e < T.length, g.Settled e

/-- `saturate` ends with the right verdict when the backward pass leaves a
graph that is ready. -/
theorem Ready.saturate {g₁ : SaturatedGraph} (hready : Ready T extra g g₁) (hT : T.Wf)
    (hb : Built T g) (hreverse : g.reverseSaturate = some g₁) :
    ∃ fuel ok g', (∀ k, g.saturate (fuel + k) = some (ok, g')) ∧
      (ok = true → Done T extra g') ∧ (ok = false → ∃ e, T.Forced extra e e) := by
  obtain ⟨fuel, ok, g', hloop, hverdict⟩ := hready.inv.saturateLoop hT hready.settled
  refine ⟨fuel, ok, g', fun k => ?_, ?_, ?_⟩
  · unfold SaturatedGraph.saturate
    rw [hreverse]
    exact saturateLoop_add k hloop
  · rintro rfl
    obtain ⟨hinv, hqueue, hsettled, hstatic⟩ := hverdict
    have huntil : g'.saturatedUntil = T.length := by
      have heq := congrArg SaturatedGraph.saturatedUntil hstatic
      exact heq.trans hready.saturatedUntil
    refine ⟨⟨?_, ?_, fun e he _ => hsettled e he, ?_, ?_⟩, hinv, hsettled⟩
    · refine hb.congr hinv.slots ?_
      rw [hstatic]
      exact hready.static_eq
    · rw [huntil]
      exact hinv
    · rw [huntil]
    · intro a ha e _ _
      rw [huntil]
      exact ha
  · rintro rfl
    exact hverdict

/-- Before the first saturation no clock sees a store. -/
theorem SessionInv.ready_of_until_eq_zero (h : SessionInv T extra g)
    (hzero : g.saturatedUntil = 0) :
    Ready T extra g { g with saturatedUntil := g.events.length } where
  inv := by
    refine Inv.setUntil (h.inv.of_readers fun e he _ pe hpe => ?_) _
    have hlt := h.lt_until pe hpe.storeTo.lt_length e he hpe.index_le
    omega
  settled e he hqueue :=
    ⟨(h.settled e he hqueue).eq_fresh, (h.settled e he hqueue).ne_pred⟩
  saturatedUntil := h.built.length_events
  static_eq := rfl

theorem reverseSaturate_of_until_eq_zero (hzero : g.saturatedUntil = 0) :
    g.reverseSaturate = some { g with saturatedUntil := g.events.length } := by
  unfold SaturatedGraph.reverseSaturate
  rw [if_neg fun hne => hne.1 hzero]

/-- The graph after legal calls. -/
theorem sessionInv_addEvents (σ : MapOrder) {calls : List Call} (h : Legal calls) :
    ∃ g, addEvents σ {} calls = some g ∧ g.saturatedUntil = 0 ∧
      SessionInv (trace calls) (fun _ _ => False) g := by
  induction h with
  | nil => exact ⟨{}, rfl, rfl, sessionInv_empty⟩
  | @concat calls c hcalls hnew hread hafter ih =>
    obtain ⟨g, hg, hzero, hsession⟩ := ih
    have hlegal := Legal.concat hcalls hnew hread hafter
    obtain ⟨g', hg', htrace, hb, hi⟩ := hsession.built.addEvent σ hlegal
    refine ⟨g', ?_, hi.saturatedUntil.trans hzero, ?_⟩
    · unfold addEvents at hg ⊢
      rw [List.foldlM_append, hg]
      show g.addEvent σ c.pid c.extId c.kind c.addr c.readFrom c.happensAfter >>= pure = _
      rw [hg']
      rfl
    · have hT' := hlegal.trace_wf
      rw [htrace] at hb hT' ⊢
      exact hsession.inserted hcalls.trace_wf hT' hb hi

/-- A graph that is built by legal calls and saturated once: `saturate` ends,
a positive verdict gives an exact graph, and a negative one excludes every
total order. -/
theorem saturate_exact (σ : MapOrder) {calls : List Call} (h : Legal calls) :
    ∃ g, addEvents σ {} calls = some g ∧
      ∃ fuel ok g', (∀ k, g.saturate (fuel + k) = some (ok, g')) ∧
        (ok = true → Exact (trace calls) g') ∧
        (ok = false → ¬ ∃ lt, (trace calls).ScOrder lt) := by
  obtain ⟨g, hg, hzero, hsession⟩ := sessionInv_addEvents σ h
  have hready := hsession.ready_of_until_eq_zero hzero
  obtain ⟨fuel, ok, g', hrun, htrue, hfalse⟩ := hready.saturate h.trace_wf hsession.built
    (reverseSaturate_of_until_eq_zero hzero)
  refine ⟨g, hg, fuel, ok, g', hrun, fun hok => ?_, ?_⟩
  · have hdone := htrue hok
    exact hdone.inv.exact h.trace_wf hdone.settled (Nat.le_refl _)
  · rintro hok ⟨lt, hsc⟩
    obtain ⟨e, hforced⟩ := hfalse hok
    exact hsc.irrefl e (hforced.lt_of_scOrder hsc fun _ _ h => h.elim)

/-- The calls of a message that one thread stores and another one loads. -/
def storeThenLoad : List Call :=
  [⟨0, ⟨0, 1⟩, .store, (⟨0, 0⟩, 0), none, []⟩,
    ⟨1, ⟨1, 1⟩, .load, (⟨0, 0⟩, 0), some ⟨0, 1⟩, [⟨0, 1⟩]⟩]

theorem legal_storeThenLoad : Legal storeThenLoad := by
  have hstore : Legal [⟨0, ⟨0, 1⟩, .store, (⟨0, 0⟩, 0), none, []⟩] :=
    Legal.nil.concat (by simp) (by simp) (by simp)
  exact hstore.concat (by simp) (by simp [EventKind.isLoad, EventKind.isStore]) (by simp)

theorem saturate_exact_storeThenLoad :
    ∃ g, addEvents ⟨id, fun _ => .refl _⟩ {} storeThenLoad = some g ∧
      ∃ fuel ok g', (∀ k, g.saturate (fuel + k) = some (ok, g')) ∧
        (ok = true → Exact (trace storeThenLoad) g') ∧
        (ok = false → ¬ ∃ lt, (trace storeThenLoad).ScOrder lt) :=
  saturate_exact ⟨id, fun _ => .refl _⟩ legal_storeThenLoad

end ViEqui.Saturation
