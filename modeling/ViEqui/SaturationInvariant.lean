import ViEqui.GraphBuild

/-!
# The invariant of saturation

What holds of a graph between two rounds of the main loop of `saturate`, and
what follows when the queue is empty.

* `Edge`: program order, read-from and the recorded edges.
* `Visible`, `LastVisible`: the stores that a clock sees.
* `Inv`: the edges are forced, the clocks are justified by paths, and each
  event has the edges that the last visible stores ask for.
* `Settled`: the clock of an event agrees with its predecessors.
* `Inv.acyclic`, `Inv.isGreatest_clock`, `Inv.coherence`, `Inv.fromRead`,
  `Inv.initRead`: the result when every event is settled.
-/

namespace ViEqui.Saturation

open AssocMap VectorClock Relation
open Rfsc (SymAddr)

namespace SaturatedGraph

/-! ## Predecessors -/

/-- The events whose clocks enter the clock of `e`. -/
def preds (g : SaturatedGraph) (e : Nat) : List Nat :=
  (g.ev e).poPredecessor.toList ++ (g.ev e).readFrom.toList ++ g.inOf e

/-- Program order, read-from and the recorded edges. -/
def Edge (g : SaturatedGraph) (a e : Nat) : Prop := a ∈ g.preds e

def clk (g : SaturatedGraph) (e p : Nat) : Nat := get (g.clockOf e) p

/-- The clock that the predecessors of `e` ask for. -/
def fresh (g : SaturatedGraph) (e : Nat) : Clock := g.recomputeVc (g.ev e) (g.inOf e)

/-- The clock of `e` agrees with its predecessors and differs from each of
theirs. -/
structure Settled (g : SaturatedGraph) (e : Nat) : Prop where
  eq_fresh : ∀ p, g.clk e p = get (g.fresh e) p
  ne_pred : ∀ a, g.Edge a e → ∃ p, g.clk a p ≠ g.clk e p

theorem fresh_eq (g : SaturatedGraph) (e : Nat) :
    g.fresh e = (g.preds e).foldl (fun vc a => join vc (g.clockOf a))
      (single (g.ev e).pid (g.ev e).index) := by
  unfold fresh recomputeVc preds
  rw [List.foldl_append, List.foldl_append]
  cases (g.ev e).poPredecessor <;> cases (g.ev e).readFrom <;> rfl

theorem le_fresh (g : SaturatedGraph) (e p k : Nat) :
    k ≤ get (g.fresh e) p ↔
      k ≤ get (single (g.ev e).pid (g.ev e).index) p ∨ ∃ a, g.Edge a e ∧ k ≤ g.clk a p := by
  rw [fresh_eq, get_foldl_join]
  rfl

/-- A component of the fresh clock is the index of the event or comes from a
predecessor. -/
theorem fresh_cases (g : SaturatedGraph) (e p : Nat) (hpos : 0 < get (g.fresh e) p) :
    (p = (g.ev e).pid ∧ get (g.fresh e) p = (g.ev e).index) ∨
      ∃ a, g.Edge a e ∧ get (g.fresh e) p = g.clk a p := by
  have hcases := get_foldl_join_cases g.clockOf (g.preds e)
    (single (g.ev e).pid (g.ev e).index) p
  rw [← fresh_eq] at hcases
  rcases hcases with hown | ⟨a, ha, heq⟩
  · rw [get_single] at hown
    split at hown
    · next hp => exact .inl ⟨hp, hown⟩
    · omega
  · exact .inr ⟨a, ha, heq⟩

theorem isInCycle_iff (g : SaturatedGraph) (e : Nat) (vc : Clock) :
    g.isInCycle (g.ev e) (g.inOf e) vc = true ↔
      ∃ a, g.Edge a e ∧ ∀ p, g.clk a p = get vc p := by
  unfold isInCycle Edge preds
  simp only [Bool.or_eq_true, Option.any_eq_true, List.any_eq_true, same_iff, List.mem_append,
    Option.mem_toList]
  constructor
  · rintro ((⟨a, ha, h⟩ | ⟨a, ha, h⟩) | ⟨a, ha, h⟩)
    · exact ⟨a, .inl (.inl ha), h⟩
    · exact ⟨a, .inl (.inr ha), h⟩
    · exact ⟨a, .inr ha, h⟩
  · rintro ⟨a, (ha | ha) | ha, h⟩
    · exact .inl (.inl ⟨a, ha, h⟩)
    · exact .inl (.inr ⟨a, ha, h⟩)
    · exact .inr ⟨a, ha, h⟩

end SaturatedGraph

/-! ## Visible stores -/

/-- `pe` is another store to the address of `e` that the clock `c` counts. -/
structure Visible (T : Trace) (c : Clock) (e pe : Nat) : Prop where
  storeTo : T.StoreTo pe e
  ne : pe ≠ e
  index_le : T.index pe ≤ get c (T.acc pe).pid

/-- The last visible store of its process. -/
structure LastVisible (T : Trace) (c : Clock) (e pe : Nat) : Prop extends
    Visible T c e pe where
  le : ∀ s, Visible T c e s → (T.acc s).pid = (T.acc pe).pid → s ≤ pe

theorem Visible.exists_last {T : Trace} {c : Clock} {e s : Nat} (h : Visible T c e s) :
    ∃ pe, LastVisible T c e pe ∧ (T.acc pe).pid = (T.acc s).pid ∧ s ≤ pe := by
  -- going up from `s`, the number of events is the bound
  induction hk : T.length - s using Nat.strong_induction_on generalizing s with
  | _ k ih =>
    by_cases hlast : ∀ s', Visible T c e s' → (T.acc s').pid = (T.acc s).pid → s' ≤ s
    · exact ⟨s, { h with le := hlast }, rfl, Nat.le_refl _⟩
    · push Not at hlast
      obtain ⟨s', hs', hpid, hlt⟩ := hlast
      have hlen := hs'.storeTo.lt_length
      obtain ⟨pe, hpe, hpepid, hle⟩ := ih (T.length - s') (by omega) hs' rfl
      exact ⟨pe, hpe, hpepid.trans hpid, by omega⟩

/-- The last visible store is the last one for a smaller clock that sees it. -/
theorem LastVisible.of_le {T : Trace} {c d : Clock} {e pe : Nat} (h : LastVisible T c e pe)
    (hle : ∀ p, get d p ≤ get c p) (hindex : T.index pe ≤ get d (T.acc pe).pid) :
    LastVisible T d e pe where
  storeTo := h.storeTo
  ne := h.ne
  index_le := hindex
  le s hs hpid := h.le s ⟨hs.storeTo, hs.ne, Nat.le_trans hs.index_le (hle _)⟩ hpid

/-! ## The invariant -/

open SaturatedGraph

/-- The edges that the last visible stores ask for, for the readers before
`u`. -/
structure Saturated (T : Trace) (u : Nat) (g : SaturatedGraph) (e : Nat) : Prop where
  store : (T.acc e).isStore → ∀ pe, LastVisible T (g.clockOf e) e pe →
    ∀ r < u, (T.acc r).readFrom = some pe → r ≠ e → TransGen g.Edge r e
  load : (T.acc e).isLoad → ∀ pe, LastVisible T (g.clockOf e) e pe →
    ∃ w, (T.acc e).readFrom = some w ∧ (pe = w ∨ TransGen g.Edge pe w)

/-- The invariant of the main loop.  `extra` are the edges of `add_edge`, and
the readers from `u` on have not been looked at. -/
structure Inv (T : Trace) (extra : Nat → Nat → Prop) (u : Nat) (g : SaturatedGraph) : Prop extends
    Tables T g where
  slots : g.Slots T.length
  vclocks : g.vclocks.length = T.length
  mem_inOf_lt : ∀ a e, a ∈ g.inOf e → a < T.length ∧ e < T.length
  mem_outOf : ∀ a e, e ∈ g.outOf a ↔
    a ∈ g.inOf e ∨ (e < T.length ∧ T.poPredecessor e = some a)
  queue_lt : ∀ x ∈ g.wqQueue, x < T.length
  forced : ∀ a e, a ∈ g.inOf e → T.Forced extra a e
  initial : ∀ a e, T.InitialEdge a e → a ∈ g.inOf e
  extra_mem : ∀ a e, extra a e → a ∈ g.inOf e
  sound : Sound g.Edge (fun e => (T.acc e).pid) T.index g.clk
  le_fresh : ∀ e < T.length, ∀ p, g.clk e p ≤ get (g.fresh e) p
  saturated : ∀ e < T.length, Saturated T u g e

variable {T : Trace} {extra : Nat → Nat → Prop} {u : Nat} {g : SaturatedGraph}

theorem Tables.ev_of_le (h : Tables T g) {e : Nat} (he : T.length ≤ e) : g.ev e = default := by
  unfold SaturatedGraph.ev
  rw [h.events, List.getD_eq_getElem?_getD, List.getElem?_map,
    List.getElem?_eq_none (by simpa using he)]
  rfl

/-- The edges in terms of the trace. -/
theorem Tables.edge_iff (h : Tables T g) (a e : Nat) :
    g.Edge a e ↔ (e < T.length ∧ T.poPredecessor e = some a) ∨
      (T.acc e).readFrom = some a ∨ a ∈ g.inOf e := by
  unfold SaturatedGraph.Edge SaturatedGraph.preds
  rw [List.mem_append, List.mem_append, Option.mem_toList, Option.mem_toList, or_assoc]
  rcases Nat.lt_or_ge e T.length with he | he
  · rw [h.ev he]
    simp [Trace.eventOf, he]
  · have hacc : T.acc e = default := by
      unfold Trace.acc
      rw [List.getD_eq_getElem?_getD, List.getElem?_eq_none he]
      rfl
    rw [h.ev_of_le he, hacc]
    refine or_congr ?_ (or_congr Iff.rfl Iff.rfl)
    constructor
    · intro hpo
      cases hpo
    · intro hpo
      exact absurd hpo.1 (Nat.not_lt.mpr he)

theorem Inv.edge_lt (h : Inv T extra u g) (hT : T.Wf) {a e : Nat} (hedge : g.Edge a e) :
    a < T.length ∧ e < T.length := by
  rcases (h.edge_iff a e).mp hedge with ⟨he, hpo⟩ | hrf | hin
  · exact ⟨Nat.lt_trans (Trace.poPredecessor_eq_some hpo).1 he, he⟩
  · have he := Trace.lt_length_of_isLoad (hT.isLoad e a hrf)
    exact ⟨Nat.lt_trans (hT.lt_of_readFrom e a hrf) he, he⟩
  · exact h.mem_inOf_lt a e hin

/-- Every edge is forced. -/
theorem Inv.forced_edge (h : Inv T extra u g) {a e : Nat} (hedge : g.Edge a e) :
    T.Forced extra a e := by
  rcases (h.edge_iff a e).mp hedge with ⟨he, hpo⟩ | hrf | hin
  · have hspec := Trace.poPredecessor_eq_some hpo
    exact .po ⟨hspec.1, he, hspec.2.1⟩
  · exact .readFrom hrf
  · exact h.forced a e hin

theorem Inv.forced_path (h : Inv T extra u g) {a e : Nat} (hpath : TransGen g.Edge a e) :
    T.Forced extra a e := by
  induction hpath with
  | single hedge => exact h.forced_edge hedge
  | tail _ hedge ih => exact .trans ih (h.forced_edge hedge)

theorem Inv.po_path (h : Inv T extra u g) {a e : Nat} (hpo : T.ProgramOrder a e) :
    TransGen g.Edge a e :=
  hpo.path fun a e he hstep => (h.edge_iff a e).mpr (.inl ⟨he, hstep⟩)

theorem Inv.lt_of_path (h : Inv T extra u g) (hT : T.Wf) {a e : Nat} (he : e < T.length)
    (hpath : ReflTransGen g.Edge a e) : a < T.length := by
  rcases ReflTransGen.cases_head hpath with rfl | ⟨b, hab, -⟩
  · exact he
  · exact (h.edge_lt hT hab).1

/-- Each component of `c` is the index of an event in the past of `e`. -/
def SeenFrom (T : Trace) (g : SaturatedGraph) (c : Clock) (e : Nat) : Prop :=
  ∀ p, 0 < get c p → ∃ a, ReflTransGen g.Edge a e ∧ (T.acc a).pid = p ∧ T.index a = get c p

/-- A component that counts `a` comes from a path. -/
theorem Inv.path_of_index_le (h : Inv T extra u g) (hT : T.Wf) {a e : Nat} {c : Clock}
    (hc : SeenFrom T g c e) (he : e < T.length)
    (hindex : T.index a ≤ get c (T.acc a).pid) : ReflTransGen g.Edge a e := by
  have hpos := Nat.lt_of_lt_of_le (T.index_pos a) hindex
  obtain ⟨b, hpath, hpid, hb⟩ := hc _ hpos
  rw [← hb, T.index_le_index hpid.symm] at hindex
  rcases Nat.eq_or_lt_of_le hindex with rfl | hlt
  · exact hpath
  · have hblen := h.lt_of_path hT he hpath
    exact (h.po_path ⟨hlt, hblen, hpid.symm⟩).to_reflTransGen.trans hpath

/-- A visible store has a path to the event. -/
theorem Inv.path_of_visible (h : Inv T extra u g) (hT : T.Wf) {e pe : Nat} {c : Clock}
    (hc : SeenFrom T g c e) (he : e < T.length) (hvis : Visible T c e pe) :
    TransGen g.Edge pe e := by
  rcases reflTransGen_iff_eq_or_transGen.mp (h.path_of_index_le hT hc he hvis.index_le) with
    heq | hpath
  · exact absurd heq.symm hvis.ne
  · exact hpath

theorem Inv.seenFrom_clockOf (h : Inv T extra u g) (e : Nat) : SeenFrom T g (g.clockOf e) e :=
  h.sound e

/-- The fresh clock is justified when the stored ones are. -/
theorem Inv.seenFrom_fresh (h : Inv T extra u g) {e : Nat} (he : e < T.length) :
    SeenFrom T g (g.fresh e) e := by
  intro p hpos
  rcases g.fresh_cases e p hpos with ⟨rfl, hown⟩ | ⟨a, hedge, heq⟩
  · refine ⟨e, .refl, ?_, ?_⟩
    · rw [h.ev he]
      rfl
    · rw [hown, h.ev he]
      rfl
  · rw [heq] at hpos ⊢
    obtain ⟨b, hpath, hb⟩ := h.sound a p hpos
    exact ⟨b, hpath.tail hedge, hb⟩

/-! ## When every event is settled -/

section Final

variable (h : Inv T extra u g) (hT : T.Wf) (hsettled : ∀ e < T.length, g.Settled e)
  (hu : T.length ≤ u)

include h hT hsettled

theorem Inv.above :
    Above g.Edge (fun e => (T.acc e).pid) T.index g.clk {e | e < T.length} where
  own e he := by
    rw [(hsettled e he).eq_fresh, SaturatedGraph.le_fresh, get_single, h.ev he]
    left
    exact Nat.le_of_eq (if_pos rfl).symm
  edge a e hedge p := by
    rw [(hsettled e (h.edge_lt hT hedge).2).eq_fresh, SaturatedGraph.le_fresh]
    exact .inr ⟨a, hedge, Nat.le_refl _⟩

/-- No cycle. -/
theorem Inv.acyclic (e : Nat) : ¬ TransGen g.Edge e e :=
  (h.above hT hsettled).acyclic
    (fun a e hedge => (hsettled e (h.edge_lt hT hedge).2).ne_pred a hedge) e

/-- The clocks are exact. -/
theorem Inv.isGreatest_clock {e : Nat} (he : e < T.length) (p : Nat) :
    IsGreatest {k | k = 0 ∨ ∃ a, ReflTransGen g.Edge a e ∧ (T.acc a).pid = p ∧ T.index a = k}
      (g.clk e p) :=
  isGreatest_past h.sound (h.above hT hsettled) (fun _ _ hedge => (h.edge_lt hT hedge).1) he p

/-- A store with a path to the event is visible. -/
theorem Inv.visible_of_path {e s : Nat} (hs : T.StoreTo s e) (hpath : TransGen g.Edge s e) :
    Visible T (g.clockOf e) e s where
  storeTo := hs
  ne := by
    rintro rfl
    exact h.acyclic hT hsettled _ hpath
  index_le := (h.above hT hsettled).idx_le hs.lt_length hpath.to_reflTransGen

/-- A store before a load is before the store that the load reads from. -/
theorem Inv.coherence {r w s : Nat} (hload : (T.acc r).isLoad)
    (hrf : (T.acc r).readFrom = some w) (hs : T.StoreTo s r) (hne : s ≠ w)
    (hpath : TransGen g.Edge s r) : TransGen g.Edge s w := by
  have hr := Trace.lt_length_of_isLoad hload
  obtain ⟨pe, hpe, hpid, hle⟩ := (h.visible_of_path hT hsettled hs hpath).exists_last
  obtain ⟨w', hw', hpew⟩ := (h.saturated r hr).load hload pe hpe
  obtain rfl : w = w' := Option.some.inj (hrf.symm.trans hw')
  have hspe : s = pe ∨ TransGen g.Edge s pe := by
    rcases Nat.eq_or_lt_of_le hle with heq | hlt
    · exact .inl heq
    · exact .inr (h.po_path ⟨hlt, hpe.storeTo.lt_length, hpid.symm⟩)
  rcases hspe with rfl | hspe
  · exact hpew.resolve_left hne
  · rcases hpew with rfl | hpew
    · exact hspe
    · exact hspe.trans hpew

include hu in
/-- The from-read edge to `s`, given those to the stores of the thread of `w`
that come before `s`. -/
theorem Inv.fromRead_step {r w s : Nat} (hrf : (T.acc r).readFrom = some w)
    (hs : T.StoreTo s r) (hsr : s ≠ r) (hpath : TransGen g.Edge w s)
    (hbelow : ∀ pe, T.ProgramOrder w pe → T.StoreTo pe r → pe ≠ r →
      TransGen g.Edge pe s → TransGen g.Edge r pe) : TransGen g.Edge r s := by
  have hw : T.StoreTo w s := ⟨hT.isStore r w hrf, (hT.addr_eq r w hrf).trans hs.2.symm⟩
  obtain ⟨pe, hpe, hpid, hle⟩ := (h.visible_of_path hT hsettled hw hpath).exists_last
  have hpes := h.path_of_visible hT (h.seenFrom_clockOf s) hs.lt_length hpe.toVisible
  rcases Nat.eq_or_lt_of_le hle with rfl | hlt
  · have hr := Trace.lt_length_of_isLoad (hT.isLoad r _ hrf)
    exact (h.saturated s hs.lt_length).store hs.1 _ hpe r (by omega) hrf (Ne.symm hsr)
  · by_cases hper : pe = r
    · rwa [hper] at hpes
    · have hper' := hbelow pe ⟨hlt, hpe.storeTo.lt_length, hpid.symm⟩
        ⟨hpe.storeTo.1, hpe.storeTo.2.trans hs.2⟩ hper hpes
      exact hper'.trans hpes

include hu in
/-- A load is before the stores that come after the store it reads from. -/
theorem Inv.fromRead {r w s : Nat} (hrf : (T.acc r).readFrom = some w) (hs : T.StoreTo s r)
    (hsr : s ≠ r) (hpath : TransGen g.Edge w s) : TransGen g.Edge r s := by
  -- first the stores of the thread of `w`, from the earliest on
  have hthread : ∀ s, T.ProgramOrder w s → T.StoreTo s r → s ≠ r → TransGen g.Edge r s := by
    intro s
    induction s using Nat.strong_induction_on with
    | _ s ih =>
      intro hpo hs hsr
      refine h.fromRead_step hT hsettled hu hrf hs hsr (h.po_path hpo) ?_
      intro pe hpope hpe hper hpath
      refine ih pe ?_ hpope hpe hper
      by_contra hge
      rcases Nat.eq_or_lt_of_le (Nat.le_of_not_lt hge) with rfl | hlt
      · exact h.acyclic hT hsettled _ hpath
      · have hback := h.po_path ⟨hlt, hpope.2.1, hpo.2.2.symm.trans hpope.2.2⟩
        exact h.acyclic hT hsettled _ (hback.trans hpath)
  exact h.fromRead_step hT hsettled hu hrf hs hsr hpath fun pe hpo hpe hper _ =>
    hthread pe hpo hpe hper

omit hT hsettled in
/-- A load of the initial value is before every store to its address. -/
theorem Inv.initRead {r s : Nat} (hload : (T.acc r).isLoad)
    (hrf : (T.acc r).readFrom = none) (hs : T.StoreTo s r) (hsr : s ≠ r) :
    TransGen g.Edge r s := by
  obtain ⟨f, hfirst, haddr, hfs⟩ := Trace.exists_firstStore hs.1
  by_cases hfr : f = r
  · subst hfr
    rcases hfs with rfl | hpo
    · exact absurd rfl hsr
    · exact h.po_path hpo
  · have hinit : T.InitialEdge r f :=
      .inr ⟨Trace.mem_initReads.mpr ⟨hload, hrf, (haddr.trans hs.2).symm⟩, hfirst, Ne.symm hfr⟩
    have hedge : g.Edge r f := (h.edge_iff r f).mpr (.inr (.inr (h.initial r f hinit)))
    rcases hfs with rfl | hpo
    · exact .single hedge
    · exact (TransGen.single hedge).trans (h.po_path hpo)

include hu in
/-- The forced edges are exactly the paths. -/
theorem Inv.path_iff_forced {a e : Nat} : TransGen g.Edge a e ↔ T.Forced extra a e := by
  refine ⟨h.forced_path, fun hforced => ?_⟩
  induction hforced with
  | po hpo => exact h.po_path hpo
  | readFrom hrf => exact .single ((h.edge_iff _ _).mpr (.inr (.inl hrf)))
  | after ha => exact .single ((h.edge_iff _ _).mpr (.inr (.inr (h.initial _ _ (.inl ha)))))
  | edge ha => exact .single ((h.edge_iff _ _).mpr (.inr (.inr (h.extra_mem _ _ ha))))
  | trans _ _ ih₁ ih₂ => exact ih₁.trans ih₂
  | coherence hload hrf hs hw _ _ ih => exact h.coherence hT hsettled hload hrf hs hw ih
  | fromRead _ hrf hs _ hr _ ih => exact h.fromRead hT hsettled hu hrf hs hr ih
  | initial hload hrf hs hr => exact h.initRead hload hrf hs hr

end Final

end ViEqui.Saturation
