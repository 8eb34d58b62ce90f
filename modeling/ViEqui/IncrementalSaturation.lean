import ViEqui.ReverseSaturation

/-!
# Saturation in batches

A graph that is saturated between two batches of events and edges, against a
graph that is built from scratch with the same events and edges.

* `Op`, `LegalOps`: the calls of a caller, and their contract.
* `Session`: a graph after these calls, with `saturate` calls that returned
  true and `clone` calls in between.
* `Scratch`: a graph after the same calls and nothing else.
* `Session.inv`: the invariant of saturation in each session.
* `sameOutcome_iff`: both graphs saturate to the same verdict and the same
  clocks, unless a cycle is behind an old store that a new load reads from.
-/

namespace ViEqui.Saturation

open AssocMap VectorClock Relation
open Rfsc (SymAddr)
open SaturatedGraph

/-- A call that changes a graph. -/
inductive Op where
  | event (c : Call)
  | edge (src dst : IID)
deriving DecidableEq, Repr

def Op.apply (σ : MapOrder) (g : SaturatedGraph) : Op → Option SaturatedGraph
  | .event c => g.addEvent σ c.pid c.extId c.kind c.addr c.readFrom c.happensAfter
  | .edge src dst => g.addEdge src dst

def Op.call? : Op → Option Call
  | .event c => some c
  | .edge _ _ => none

/-- The events among the calls. -/
def calls (ops : List Op) : List Call := ops.filterMap Op.call?

/-- The contract of a call after the events `earlier`: an event is legal, and
an edge is between two events of the graph. -/
def Op.LegalAfter (earlier : List Call) : Op → Prop
  | .event c => Legal (earlier ++ [c])
  | .edge src dst =>
    (∃ a ∈ earlier, a.extId = src) ∧ ∃ a ∈ earlier, a.extId = dst

inductive LegalOps : List Op → Prop
  | nil : LegalOps []
  | concat {ops : List Op} {o : Op} : LegalOps ops → o.LegalAfter (calls ops) →
      LegalOps (ops ++ [o])

/-- A graph after `ops`, with saturations and copies in between. -/
inductive Session : List Op → SaturatedGraph → Prop
  | empty : Session [] {}
  | op {ops : List Op} {g g' : SaturatedGraph} (σ : MapOrder) (o : Op) : Session ops g →
      o.apply σ g = some g' → Session (ops ++ [o]) g'
  | saturate {ops : List Op} {g g' : SaturatedGraph} (fuel : Nat) : Session ops g →
      g.saturate fuel = some (true, g') → Session ops g'
  | clone {ops : List Op} {g : SaturatedGraph} : Session ops g → Session ops g.clone

/-- A graph after `ops` alone. -/
inductive Scratch : List Op → SaturatedGraph → Prop
  | empty : Scratch [] {}
  | op {ops : List Op} {g g' : SaturatedGraph} (σ : MapOrder) (o : Op) : Scratch ops g →
      o.apply σ g = some g' → Scratch (ops ++ [o]) g'

/-- The edges of the `add_edge` calls, between positions. -/
def added (ops : List Op) (a e : Nat) : Prop :=
  ∃ src dst, .edge src dst ∈ ops ∧ a = position (calls ops) src ∧ e = position (calls ops) dst

variable {ops : List Op} {g g₀ g' : SaturatedGraph}

theorem calls_event (ops : List Op) (c : Call) : calls (ops ++ [.event c]) = calls ops ++ [c] := by
  unfold calls
  rw [List.filterMap_append]
  rfl

theorem calls_edge (ops : List Op) (src dst : IID) : calls (ops ++ [.edge src dst]) = calls ops := by
  unfold calls
  rw [List.filterMap_append]
  exact List.append_nil _

theorem LegalOps.of_concat {o : Op} (h : LegalOps (ops ++ [o])) :
    LegalOps ops ∧ o.LegalAfter (calls ops) := by
  generalize heq : ops ++ [o] = l at h
  cases h with
  | nil => simp at heq
  | concat hops hlegal =>
    obtain ⟨rfl, ho⟩ := List.append_inj' heq rfl
    obtain rfl := List.singleton_inj.mp ho
    exact ⟨hops, hlegal⟩

theorem LegalOps.legal (h : LegalOps ops) : Legal (calls ops) := by
  induction h with
  | nil => exact .nil
  | @concat ops o _ hlegal ih =>
    cases o with
    | event c => rwa [calls_event]
    | edge src dst => rwa [calls_edge]

/-- The ends of the edges are events. -/
theorem LegalOps.refers (h : LegalOps ops) {src dst : IID} (hmem : .edge src dst ∈ ops) :
    (∃ a ∈ calls ops, a.extId = src) ∧ ∃ a ∈ calls ops, a.extId = dst := by
  induction h with
  | nil => cases hmem
  | @concat ops o _ hlegal ih =>
    cases o with
    | event c =>
      rcases List.mem_append.mp hmem with hmem | hmem
      · obtain ⟨⟨a, ha, hax⟩, ⟨b, hb, hbx⟩⟩ := ih hmem
        rw [calls_event]
        exact ⟨⟨a, List.mem_append_left _ ha, hax⟩, ⟨b, List.mem_append_left _ hb, hbx⟩⟩
      · cases List.mem_singleton.mp hmem
    | edge src' dst' =>
      rw [calls_edge]
      rcases List.mem_append.mp hmem with hmem | hmem
      · exact ih hmem
      · cases List.mem_singleton.mp hmem
        exact hlegal

/-- An event adds no edge. -/
theorem added_event (h : LegalOps ops) (c : Call) : added (ops ++ [.event c]) = added ops := by
  funext a e
  apply propext
  have hposition : ∀ {src dst}, .edge src dst ∈ ops →
      position (calls (ops ++ [.event c])) src = position (calls ops) src ∧
        position (calls (ops ++ [.event c])) dst = position (calls ops) dst := by
    intro src dst hmem
    rw [calls_event]
    exact ⟨position_append (h.refers hmem).1, position_append (h.refers hmem).2⟩
  constructor
  · rintro ⟨src, dst, hmem, rfl, rfl⟩
    rcases List.mem_append.mp hmem with hmem | hmem
    · exact ⟨src, dst, hmem, (hposition hmem).1, (hposition hmem).2⟩
    · cases List.mem_singleton.mp hmem
  · rintro ⟨src, dst, hmem, rfl, rfl⟩
    exact ⟨src, dst, List.mem_append_left _ hmem, (hposition hmem).1.symm, (hposition hmem).2.symm⟩

theorem added_edge (ops : List Op) (src dst : IID) : added (ops ++ [.edge src dst]) =
    fun a e => added ops a e ∨ (a = position (calls ops) src ∧ e = position (calls ops) dst) := by
  funext a e
  apply propext
  unfold added
  rw [calls_edge]
  constructor
  · rintro ⟨src', dst', hmem, ha, he⟩
    rcases List.mem_append.mp hmem with hmem | hmem
    · exact .inl ⟨src', dst', hmem, ha, he⟩
    · cases List.mem_singleton.mp hmem
      exact .inr ⟨ha, he⟩
  · rintro (⟨src', dst', hmem, ha, he⟩ | ⟨ha, he⟩)
    · exact ⟨src', dst', List.mem_append_left _ hmem, ha, he⟩
    · exact ⟨src, dst, by simp, ha, he⟩

/-- An identifier is found at its position. -/
theorem Built.find?_position {calls : List Call} (h : Built (trace calls) g) {x : IID}
    (hx : ∃ a ∈ calls, a.extId = x) : find? g.extidToId x = some (position calls x) := by
  obtain ⟨a, -, hax, hacc⟩ := acc_trace_position hx
  have hids := h.ids (position calls x) (by
    rw [length_trace]
    exact position_lt hx)
  rw [hacc] at hids
  rw [← hax]
  rw [← hax] at hids
  exact hids

/-- One call keeps the invariant. -/
theorem SessionInv.op (h : SessionInv (trace (calls ops)) (added ops) g) {o : Op}
    (hlegal : LegalOps (ops ++ [o])) {σ : MapOrder} (hg' : o.apply σ g = some g') :
    SessionInv (trace (calls (ops ++ [o]))) (added (ops ++ [o])) g' ∧
      g'.saturatedUntil = g.saturatedUntil := by
  obtain ⟨hops, hone⟩ := hlegal.of_concat
  cases o with
  | event c =>
    obtain ⟨g₁, hg₁, htrace, hb, hi⟩ := h.built.addEvent σ hone
    obtain rfl : g₁ = g' := Option.some.inj (hg₁.symm.trans hg')
    have hT' := hone.trace_wf
    rw [calls_event, added_event hops]
    rw [htrace] at hb hT' ⊢
    exact ⟨h.inserted hops.legal.trace_wf hT' hb hi, hi.saturatedUntil⟩
  | edge src dst =>
    obtain ⟨hsrc, hdst⟩ := hone
    have happly : g.addEdge src dst =
        some (g.addEdgeInternal (position (calls ops) src) (position (calls ops) dst)) := by
      unfold SaturatedGraph.addEdge
      rw [h.built.find?_position hsrc, h.built.find?_position hdst]
      rfl
    obtain rfl := Option.some.inj (happly.symm.trans hg')
    rw [calls_edge, added_edge]
    have hs : position (calls ops) src < (trace (calls ops)).length := by
      rw [length_trace]
      exact position_lt hsrc
    have hd : position (calls ops) dst < (trace (calls ops)).length := by
      rw [length_trace]
      exact position_lt hdst
    refine ⟨h.addEdge hs hd, ?_⟩
    have heq := congrArg saturatedUntil (grows_addEdgeInternal h.built.slots hs hd).rest_eq
    exact heq

theorem saturate_add {fuel : Nat} {r : Bool × SaturatedGraph} (k : Nat)
    (h : g.saturate fuel = some r) : g.saturate (fuel + k) = some r := by
  unfold SaturatedGraph.saturate at h ⊢
  obtain ⟨g₁, hg₁, hloop⟩ := Option.bind_eq_some_iff.mp h
  rw [hg₁]
  exact saturateLoop_add k hloop

/-- A saturation that returned true keeps the invariant. -/
theorem SessionInv.saturate {T : Trace} {extra : Nat → Nat → Prop} (h : SessionInv T extra g)
    (hT : T.Wf) {fuel : Nat} (hg' : g.saturate fuel = some (true, g')) : Done T extra g' := by
  have hnot : ¬ g.BehindCycle := by
    intro hcycle
    have hnone := (h.inv.reverseSaturate_eq_none_iff hT h.until_le).mpr hcycle
    unfold SaturatedGraph.saturate at hg'
    rw [hnone] at hg'
    cases hg'
  obtain ⟨g₁, hg₁, hready⟩ := h.ready hT hnot
  obtain ⟨fuel', ok, g'', hrun, htrue, -⟩ := hready.saturate hT h.built hg₁
  have heq := saturate_add fuel' hg'
  rw [Nat.add_comm, hrun] at heq
  cases heq
  exact htrue rfl

/-- The invariant of a session. -/
theorem Session.inv (h : Session ops g) (hlegal : LegalOps ops) :
    SessionInv (trace (calls ops)) (added ops) g := by
  induction h with
  | empty =>
    have hadded : added [] = fun _ _ => False := by
      funext a e
      exact propext ⟨fun ⟨_, _, hmem, _⟩ => absurd hmem List.not_mem_nil, False.elim⟩
    rw [hadded]
    exact sessionInv_empty
  | op σ o _ hg' ih => exact ((ih hlegal.of_concat.1).op hlegal hg').1
  | saturate fuel _ hg' ih => exact ((ih hlegal).saturate hlegal.legal.trace_wf hg').session
  | clone _ ih => exact ih hlegal

theorem Scratch.session (h : Scratch ops g) : Session ops g := by
  induction h with
  | empty => exact .empty
  | op σ o _ hg' ih => exact .op σ o ih hg'

/-- A graph from scratch was never saturated. -/
theorem Scratch.saturatedUntil_eq (h : Scratch ops g) (hlegal : LegalOps ops) :
    g.saturatedUntil = 0 := by
  induction h with
  | empty => rfl
  | op σ o hscratch hg' ih =>
    have hops := hlegal.of_concat.1
    exact ((hscratch.session.inv hops).op hlegal hg').2.trans (ih hops)

/-! ## The outcome -/

/-- Both saturations end, with the same verdict, and a positive one leaves the
same clocks. -/
def SameOutcome (g g₀ : SaturatedGraph) : Prop :=
  ∃ fuel ok g' g₀', (∀ k, g.saturate (fuel + k) = some (ok, g')) ∧
    (∀ k, g₀.saturate (fuel + k) = some (ok, g₀')) ∧
    (ok = true → ∀ e, same (g'.clockOf e) (g₀'.clockOf e) = true)

section Done

variable {T : Trace} {extra : Nat → Nat → Prop} (h : Done T extra g) (hT : T.Wf)

include h hT

/-- A saturated graph has no forced cycle. -/
theorem Done.not_forced (e : Nat) : ¬ T.Forced extra e e := by
  intro hforced
  have hpath := (h.inv.path_iff_forced hT h.settled (Nat.le_refl _)).mpr hforced
  exact h.inv.acyclic hT h.settled e hpath

/-- The clocks in terms of the trace. -/
theorem Done.isGreatest_clock {e : Nat} (he : e < T.length) (p : Nat) :
    IsGreatest {k | k = 0 ∨ ∃ a, (e = a ∨ T.Forced extra a e) ∧ (T.acc a).pid = p ∧ T.index a = k}
      (g.clk e p) := by
  have hpath : ∀ a, ReflTransGen g.Edge a e ↔ e = a ∨ T.Forced extra a e := fun a => by
    rw [reflTransGen_iff_eq_or_transGen, h.inv.path_iff_forced hT h.settled (Nat.le_refl _)]
  have hclock := h.inv.isGreatest_clock hT h.settled he p
  simpa only [hpath] using hclock

/-- Two saturated graphs of one trace have the same clocks. -/
theorem Done.same_clock (h₀ : Done T extra g₀) (e : Nat) :
    same (g.clockOf e) (g₀.clockOf e) = true := by
  rw [same_iff]
  intro p
  rcases Nat.lt_or_ge e T.length with he | he
  · exact (h.isGreatest_clock hT he p).unique (h₀.isGreatest_clock hT he p)
  · have hzero : ∀ {g : SaturatedGraph}, Inv T extra T.length g → g.clk e p = 0 := by
      intro g hinv
      by_contra hne
      have := hinv.lt_of_clk_pos (Nat.pos_of_ne_zero hne)
      omega
    exact (hzero h.inv).trans (hzero h₀.inv).symm

end Done

/-- Saturation in batches has the outcome of saturation from scratch unless a
cycle is behind an old store that a new load reads from. -/
theorem sameOutcome_iff (hlegal : LegalOps ops) (hg : Session ops g) (hg₀ : Scratch ops g₀) :
    SameOutcome g g₀ ↔ ¬ g.BehindCycle := by
  have hT := hlegal.legal.trace_wf
  have hinv := hg.inv hlegal
  constructor
  · rintro ⟨fuel, ok, g', -, hrun, -, -⟩ hcycle
    have hnone := (hinv.inv.reverseSaturate_eq_none_iff hT hinv.until_le).mpr hcycle
    have hsome := hrun 0
    unfold SaturatedGraph.saturate at hsome
    rw [hnone] at hsome
    cases hsome
  · intro hnot
    obtain ⟨g₁, hg₁, hready⟩ := hinv.ready hT hnot
    obtain ⟨fuel, ok, g', hrun, htrue, hfalse⟩ := hready.saturate hT hinv.built hg₁
    have hzero := hg₀.saturatedUntil_eq hlegal
    have hinv₀ := hg₀.session.inv hlegal
    obtain ⟨fuel₀, ok₀, g₀', hrun₀, htrue₀, hfalse₀⟩ :=
      (hinv₀.ready_of_until_eq_zero hzero).saturate hT hinv₀.built
        (reverseSaturate_of_until_eq_zero hzero)
    have hok : ok₀ = ok := by
      cases ok with
      | true =>
        cases ok₀ with
        | true => rfl
        | false =>
          obtain ⟨e, hforced⟩ := hfalse₀ rfl
          exact absurd hforced ((htrue rfl).not_forced hT e)
      | false =>
        cases ok₀ with
        | false => rfl
        | true =>
          obtain ⟨e, hforced⟩ := hfalse rfl
          exact absurd hforced ((htrue₀ rfl).not_forced hT e)
    subst hok
    refine ⟨fuel + fuel₀, ok₀, g', g₀', fun k => ?_, fun k => ?_, fun hok e => ?_⟩
    · rw [Nat.add_assoc]
      exact hrun _
    · rw [Nat.add_comm fuel, Nat.add_assoc]
      exact hrun₀ _
    · exact (htrue hok).same_clock hT (htrue₀ hok) e

/-! ## Message passing -/

/-- Several calls with one order of the hash maps. -/
def applyAll (σ : MapOrder) (g : SaturatedGraph) (ops : List Op) : Option SaturatedGraph :=
  ops.foldlM (Op.apply σ) g

theorem Session.applyAll {σ : MapOrder} {more : List Op} (h : Session ops g)
    (hg' : Saturation.applyAll σ g more = some g') : Session (ops ++ more) g' := by
  induction more generalizing ops g with
  | nil =>
    obtain rfl := Option.some.inj hg'
    rwa [List.append_nil]
  | cons o more ih =>
    unfold Saturation.applyAll at hg' ih
    rw [List.foldlM_cons] at hg'
    obtain ⟨g₁, hg₁, hg'⟩ := Option.bind_eq_some_iff.mp hg'
    rw [List.append_cons]
    exact ih (.op σ o h hg₁) hg'

theorem Scratch.applyAll {σ : MapOrder} {more : List Op} (h : Scratch ops g)
    (hg' : Saturation.applyAll σ g more = some g') : Scratch (ops ++ more) g' := by
  induction more generalizing ops g with
  | nil =>
    obtain rfl := Option.some.inj hg'
    rwa [List.append_nil]
  | cons o more ih =>
    unfold Saturation.applyAll at hg' ih
    rw [List.foldlM_cons] at hg'
    obtain ⟨g₁, hg₁, hg'⟩ := Option.bind_eq_some_iff.mp hg'
    rw [List.append_cons]
    exact ih (.op σ o h hg₁) hg'

def listOrder : MapOrder := ⟨id, fun _ => .refl _⟩

/-- One thread stores the data and then the flag. -/
def stores : List Op :=
  [.event ⟨0, ⟨0, 1⟩, .store, (⟨0, 0⟩, 0), none, []⟩,
    .event ⟨0, ⟨0, 2⟩, .store, (⟨0, 1⟩, 0), none, []⟩]

/-- Another thread loads the flag that was stored and then the old data. -/
def loads : List Op :=
  [.event ⟨1, ⟨1, 1⟩, .load, (⟨0, 1⟩, 0), some ⟨0, 2⟩, []⟩,
    .event ⟨1, ⟨1, 2⟩, .load, (⟨0, 0⟩, 0), none, []⟩]

theorem legalOps_stores : LegalOps stores := by
  have hdata : LegalOps [.event ⟨0, ⟨0, 1⟩, .store, (⟨0, 0⟩, 0), none, []⟩] :=
    LegalOps.nil.concat (Legal.nil.concat (by simp) (by simp) (by simp))
  exact hdata.concat (hdata.legal.concat (by decide) (by simp) (by simp))

theorem legalOps_messagePassing : LegalOps (stores ++ loads) := by
  have hflag : LegalOps (stores ++ [.event ⟨1, ⟨1, 1⟩, .load, (⟨0, 1⟩, 0), some ⟨0, 2⟩, []⟩]) :=
    legalOps_stores.concat (legalOps_stores.legal.concat (by decide) (by
      rintro x ⟨⟩
      decide) (by simp))
  exact hflag.concat (hflag.legal.concat (by decide) (by simp) (by simp))

/-- The graph of the stores, saturated, and the loads added. -/
def batchGraph : Option SaturatedGraph := do
  let g ← applyAll listOrder {} stores
  let (ok, g) ← g.saturate 10
  if ok then applyAll listOrder g loads else none

theorem run_messagePassing :
    batchGraph.isSome = true ∧ batchGraph.bind reverseSaturate = none ∧
      (applyAll listOrder {} (stores ++ loads)).isSome = true ∧
      ((applyAll listOrder {} (stores ++ loads)).bind fun g₀ =>
        (g₀.saturate 20).map Prod.fst) = some false := by
  decide +kernel

theorem exists_batch : ∃ g, batchGraph = some g ∧ Session (stores ++ loads) g := by
  obtain ⟨g, hg⟩ := Option.isSome_iff_exists.mp run_messagePassing.1
  refine ⟨g, hg, ?_⟩
  unfold batchGraph at hg
  obtain ⟨g₁, hg₁, hrest⟩ := Option.bind_eq_some_iff.mp hg
  obtain ⟨⟨ok, g₂⟩, hg₂, hrest⟩ := Option.bind_eq_some_iff.mp hrest
  have hstored : Session stores g₁ := Session.empty.applyAll hg₁
  cases ok with
  | false => cases hrest
  | true => exact (Session.saturate 10 hstored hg₂).applyAll hrest

/-- From scratch the verdict is negative, and in two batches an index out of
range is read. -/
theorem not_sameOutcome_messagePassing : ∃ g g₀, LegalOps (stores ++ loads) ∧
    Session (stores ++ loads) g ∧ Scratch (stores ++ loads) g₀ ∧
    g.reverseSaturate = none ∧ (g₀.saturate 20).map Prod.fst = some false ∧
    ¬ SameOutcome g g₀ := by
  obtain ⟨g, hg, hsession⟩ := exists_batch
  obtain ⟨-, hnone, -, hscratch⟩ := run_messagePassing
  rw [hg] at hnone
  obtain ⟨g₀, hg₀, hverdict⟩ := Option.bind_eq_some_iff.mp hscratch
  refine ⟨g, g₀, legalOps_messagePassing, hsession, Scratch.empty.applyAll hg₀, hnone, hverdict, ?_⟩
  rintro ⟨fuel, ok, g', -, hrun, -, -⟩
  have hsome := hrun 0
  unfold SaturatedGraph.saturate at hsome
  change g.reverseSaturate = none at hnone
  rw [hnone] at hsome
  cases hsome

/-- The same calls in two batches and from scratch. -/
theorem sameOutcome_iff_messagePassing : ∃ g g₀, Session (stores ++ loads) g ∧
    Scratch (stores ++ loads) g₀ ∧ (SameOutcome g g₀ ↔ ¬ g.BehindCycle) := by
  obtain ⟨g, -, hsession⟩ := exists_batch
  obtain ⟨g₀, hg₀⟩ := Option.isSome_iff_exists.mp run_messagePassing.2.2.1
  have hscratch := Scratch.empty.applyAll hg₀
  exact ⟨g, g₀, hsession, hscratch, sameOutcome_iff legalOps_messagePassing hsession hscratch⟩

end ViEqui.Saturation
