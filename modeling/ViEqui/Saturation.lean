import ViEqui.SaturationInvariant

/-!
# The main loop of saturation

The main loop of `saturate` keeps the invariant, ends, and gives the right
verdict.

* `newlyVisible_eq_some_iff`: the store that the loop over the processes looks
  at.
* `foldlM_visitPid`: the edges of one pass.
* `Inv.saturateEvent`: one round of the main loop.
* `Inv.saturateLoop`: the whole loop.
* `Exact`: what a positive verdict means.
-/

namespace ViEqui.Saturation

open AssocMap VectorClock Relation
open Rfsc (SymAddr)

/-! ## The last visible store -/

/-- In a sorted list the last element is the greatest one. -/
theorem getLast?_eq_some_iff_of_sorted {l : List Nat} (hl : l.Pairwise (· < ·)) {y : Nat} :
    l.getLast? = some y ↔ y ∈ l ∧ ∀ x ∈ l, x ≤ y := by
  constructor
  · intro h
    exact ⟨List.mem_of_getLast? h, fun x hx => Trace.le_of_getLast? hl h hx⟩
  · rintro ⟨hy, hmax⟩
    cases hlast : l.getLast? with
    | none => simp [List.getLast?_eq_none_iff.mp hlast] at hy
    | some z =>
      have hyz := Trace.le_of_getLast? hl hlast hy
      have hzy := hmax z (List.mem_of_getLast? hlast)
      rw [Nat.le_antisymm hzy hyz]

theorem mem_upTo {l : List Nat} (hl : l.Pairwise (· < ·)) {x y : Nat} :
    y ∈ upTo l x ↔ y ∈ l ∧ y ≤ x := by
  unfold upTo
  induction l with
  | nil => simp
  | cons z l ih =>
    have hcons := List.pairwise_cons.mp hl
    rw [List.takeWhile_cons]
    split
    · next hz =>
      have hzx : z ≤ x := of_decide_eq_true hz
      rw [List.mem_cons, ih hcons.2, List.mem_cons]
      constructor
      · rintro (rfl | h)
        · exact ⟨.inl rfl, hzx⟩
        · exact ⟨.inr h.1, h.2⟩
      · rintro ⟨rfl | h, hy⟩
        · exact .inl rfl
        · exact .inr ⟨h, hy⟩
    · next hz =>
      have hzx : x < z := Nat.lt_of_not_le fun h => hz (decide_eq_true h)
      constructor
      · intro h
        cases h
      · rintro ⟨h, hy⟩
        rcases List.mem_cons.mp h with rfl | h
        · omega
        · have := hcons.1 y h
          omega

/-- The last element other than `id`. -/
theorem getLast?_skip {l : List Nat} (hl : l.Pairwise (· < ·)) (id y : Nat) :
    (if l.getLast? = some id then l.dropLast else l).getLast? = some y ↔
      y ∈ l ∧ y ≠ id ∧ ∀ x ∈ l, x ≠ id → x ≤ y := by
  rcases List.eq_nil_or_concat l with rfl | ⟨l, z, rfl⟩
  · simp
  · rw [List.concat_eq_append] at hl ⊢
    obtain ⟨hpre, -, hlt⟩ := List.pairwise_append.mp hl
    have hlt : ∀ x ∈ l, x < z := fun x hx => hlt x hx z (by simp)
    rw [List.getLast?_concat, List.dropLast_concat]
    by_cases hz : z = id
    · subst hz
      rw [if_pos rfl, getLast?_eq_some_iff_of_sorted hpre]
      constructor
      · rintro ⟨hy, hmax⟩
        refine ⟨List.mem_append_left _ hy, Nat.ne_of_lt (hlt y hy), fun x hx hxz => ?_⟩
        rcases List.mem_append.mp hx with hx | hx
        · exact hmax x hx
        · exact absurd (List.mem_singleton.mp hx) hxz
      · rintro ⟨hy, hyz, hmax⟩
        rcases List.mem_append.mp hy with hy | hy
        · exact ⟨hy, fun x hx => hmax x (List.mem_append_left _ hx) (Nat.ne_of_lt (hlt x hx))⟩
        · exact absurd (List.mem_singleton.mp hy) hyz
    · rw [if_neg fun h => hz (Option.some.inj h), List.getLast?_concat, Option.some.injEq]
      constructor
      · rintro rfl
        refine ⟨by simp, hz, fun x hx _ => ?_⟩
        rcases List.mem_append.mp hx with hx | hx
        · exact Nat.le_of_lt (hlt x hx)
        · exact Nat.le_of_eq (List.mem_singleton.mp hx)
      · rintro ⟨hy, -, hmax⟩
        have hzy := hmax z (by simp) hz
        rcases List.mem_append.mp hy with hy | hy
        · have := hlt y hy
          omega
        · exact (List.mem_singleton.mp hy).symm

open SaturatedGraph

variable {T : Trace} {extra : Nat → Nat → Prop} {u : Nat} {g : SaturatedGraph}

/-- The event at the index that a clock counts. -/
theorem Tables.getProcessEvent_eq (h : Tables T g) {a : Nat} (ha : a < T.length) :
    g.getProcessEvent (T.acc a).pid (T.index a) = a := by
  unfold SaturatedGraph.getProcessEvent
  rw [h.threads, List.getD_eq_getElem?_getD, T.thread_getElem? ha]
  rfl

/-- A component of the clock is 0 or the index of an event. -/
def Justified (T : Trace) (c : Clock) : Prop :=
  ∀ p, 0 < get c p → ∃ a < T.length, (T.acc a).pid = p ∧ T.index a = get c p

theorem lastStore_eq_some_iff (h : Tables T g) {id a : Nat} (hid : id < T.length)
    (ha : a < T.length) {vc : Clock} (hindex : T.index a = get vc (T.acc a).pid) (pe : Nat) :
    g.lastStore (g.ev id) id (T.acc a).pid (T.index a) = some pe ↔
      LastVisible T vc id pe ∧ (T.acc pe).pid = (T.acc a).pid := by
  have hsorted : (T.writes (T.acc a).pid (T.acc id).addr).Pairwise (· < ·) := T.select_sorted _
  have hsub : (upTo (T.writes (T.acc a).pid (T.acc id).addr) a).Pairwise (· < ·) :=
    hsorted.sublist (List.takeWhile_sublist _)
  have hmem : ∀ x, x ∈ upTo (T.writes (T.acc a).pid (T.acc id).addr) a ∧ x ≠ id ↔
      Visible T vc id x ∧ (T.acc x).pid = (T.acc a).pid := by
    intro x
    rw [mem_upTo hsorted, Trace.mem_writes]
    constructor
    · rintro ⟨⟨⟨hstore, hpid, haddr⟩, hxa⟩, hne⟩
      refine ⟨⟨⟨hstore, haddr⟩, hne, ?_⟩, hpid⟩
      rw [hpid, ← hindex]
      exact (T.index_le_index hpid).mpr hxa
    · rintro ⟨⟨⟨hstore, haddr⟩, hne, hle⟩, hpid⟩
      rw [hpid, ← hindex] at hle
      exact ⟨⟨⟨hstore, hpid, haddr⟩, (T.index_le_index hpid).mp hle⟩, hne⟩
  unfold SaturatedGraph.lastStore
  rw [h.getProcessEvent_eq ha, h.writes, h.ev hid]
  refine (getLast?_skip hsub id pe).trans ?_
  constructor
  · rintro ⟨hy, hne, hmax⟩
    have hvis := (hmem pe).mp ⟨hy, hne⟩
    refine ⟨{ hvis.1 with le := fun s hs hpid => ?_ }, hvis.2⟩
    have hs' := (hmem s).mpr ⟨hs, hpid.trans hvis.2⟩
    exact hmax s hs'.1 hs'.2
  · rintro ⟨hlast, hpid⟩
    have hy := (hmem pe).mpr ⟨hlast.toVisible, hpid⟩
    refine ⟨hy.1, hy.2, fun x hx hxid => ?_⟩
    have hx' := (hmem x).mp ⟨hx, hxid⟩
    exact hlast.le x hx'.1 (hx'.2.trans hpid.symm)

theorem newlyVisible_eq_some_iff (h : Tables T g) {id : Nat} (hid : id < T.length)
    {old vc : Clock} (hvc : Justified T vc) (hle : ∀ p, get old p ≤ get vc p) (p pe : Nat) :
    g.newlyVisible (g.ev id) id old vc p = some pe ↔
      LastVisible T vc id pe ∧ (T.acc pe).pid = p ∧ get old p < T.index pe := by
  unfold SaturatedGraph.newlyVisible
  by_cases heq : get old p = get vc p
  · rw [if_pos heq]
    simp only [reduceCtorEq, false_iff]
    rintro ⟨hlast, rfl, hlt⟩
    have := hlast.index_le
    omega
  · rw [if_neg heq]
    have hlt := hle p
    obtain ⟨a, ha, rfl, hindex⟩ := hvc p (by omega)
    have hspec := lastStore_eq_some_iff h hid ha hindex
    rw [← hindex]
    constructor
    · intro hmatch
      cases hstore : g.lastStore (g.ev id) id (T.acc a).pid (T.index a) with
      | none =>
        rw [hstore] at hmatch
        cases hmatch
      | some s =>
        rw [hstore] at hmatch
        obtain ⟨hlast, hpid⟩ := (hspec s).mp hstore
        change (if (g.ev s).index ≤ _ then none else some s) = some pe at hmatch
        rw [h.ev hlast.storeTo.lt_length] at hmatch
        by_cases hseen : T.index s ≤ get old (T.acc a).pid
        · simp [Trace.eventOf, hseen] at hmatch
        · obtain rfl : s = pe := by simpa [Trace.eventOf, hseen] using hmatch
          exact ⟨hlast, hpid, by omega⟩
    · rintro ⟨hlast, hpid, hnew⟩
      rw [(hspec pe).mpr ⟨hlast, hpid⟩]
      show (if (g.ev pe).index ≤ _ then none else some pe) = some pe
      rw [h.ev hlast.storeTo.lt_length]
      exact if_neg (Nat.not_le.mpr hnew)

/-! ## The loop over the processes -/

/-- A loop that may stop with an error. -/
theorem foldlM_except {ε σ α : Type} {f : σ → α → Except ε σ} {P : List α → σ → Prop}
    {Q : ε → Prop}
    (hok : ∀ done a s s', P done s → f s a = .ok s' → P (done ++ [a]) s')
    (herror : ∀ done a s e, P done s → f s a = .error e → Q e) (l done : List α) (s : σ)
    (hs : P done s) :
    (∀ s', l.foldlM f s = .ok s' → P (done ++ l) s') ∧
      ∀ e, l.foldlM f s = .error e → Q e := by
  induction l generalizing done s with
  | nil =>
    refine ⟨fun s' h => ?_, fun e h => by cases h⟩
    obtain rfl : s = s' := by simpa [pure, Except.pure] using h
    simpa using hs
  | cons a l ih =>
    rw [List.foldlM_cons]
    cases hf : f s a with
    | error e =>
      constructor
      · intro s' h
        cases h
      · intro e' h
        obtain rfl : e = e' := by simpa [bind, Except.bind] using h
        exact herror done a s e hs hf
    | ok s' =>
      have hnext := ih (done ++ [a]) s' (hok done a s s' hs hf)
      rw [List.append_assoc] at hnext
      exact hnext

theorem newlyVisible_congr {g' : SaturatedGraph} (h : g'.rest = g.rest) (e : Event)
    (id : Nat) (old vc : Clock) (p : Nat) :
    g'.newlyVisible e id old vc p = g.newlyVisible e id old vc p := by
  have hrest : ∀ g : SaturatedGraph,
      g.rest.newlyVisible e id old vc p = g.newlyVisible e id old vc p := fun _ => rfl
  rw [← hrest, h, hrest]

/-- The loop over the readers of a store. -/
theorem addFromReads_eq (s : Pass) (pe id : Nat) :
    addFromReads s pe id =
      { s with
        g := ((s.g.ev pe).readers.filter (· ≠ id)).foldl (fun g r => g.recordEdge r id) s.g
        newIn := s.newIn || !((s.g.ev pe).readers.filter (· ≠ id)).isEmpty } := by
  unfold addFromReads
  generalize (s.g.ev pe).readers.filter (· ≠ id) = l
  induction l generalizing s with
  | nil => simp
  | cons r l ih =>
    rw [List.foldl_cons, ih]
    simp

/-- A from-read edge to `id` after the processes `done`. -/
def FromReadEdge (T : Trace) (g : SaturatedGraph) (id : Nat) (vc : Clock) (done : List Nat)
    (a e : Nat) : Prop :=
  e = id ∧ (T.acc id).isStore ∧ a ≠ id ∧ ∃ p ∈ done, ∃ pe,
    g.newlyVisible (g.ev id) id (g.clockOf id) vc p = some pe ∧ (T.acc a).readFrom = some pe

/-- The loop over the processes after the processes `done`. -/
structure PassInv (T : Trace) (g : SaturatedGraph) (id : Nat) (vc : Clock) (done : List Nat)
    (s : Pass) : Prop where
  grows : Grows T.length g s.g (FromReadEdge T g id vc done) (FromReadEdge T g id vc done)
    fun _ => False
  newIn : s.newIn = false → ∀ a e, ¬ FromReadEdge T g id vc done a e
  newEdges : ∀ a w, (a, w) ∈ s.newEdges ↔
    (T.acc id).isLoad ∧ (T.acc id).readFrom = some w ∧ a ≠ w ∧
      ∃ p ∈ done, g.newlyVisible (g.ev id) id (g.clockOf id) vc p = some a
  readFrom : (T.acc id).isLoad → ∀ p ∈ done,
    g.newlyVisible (g.ev id) id (g.clockOf id) vc p ≠ none → (T.acc id).readFrom ≠ none

section Pass

variable {id : Nat} {vc : Clock} {done : List Nat} {s : Pass}

theorem fromReadEdge_concat (p a e : Nat) :
    FromReadEdge T g id vc (done ++ [p]) a e ↔ FromReadEdge T g id vc done a e ∨
      (e = id ∧ (T.acc id).isStore ∧ a ≠ id ∧ ∃ pe,
        g.newlyVisible (g.ev id) id (g.clockOf id) vc p = some pe ∧
          (T.acc a).readFrom = some pe) := by
  unfold FromReadEdge
  simp only [List.mem_append, List.mem_singleton]
  constructor
  · rintro ⟨rfl, hstore, hne, q, hq | rfl, hpe⟩
    · exact .inl ⟨rfl, hstore, hne, q, hq, hpe⟩
    · exact .inr ⟨rfl, hstore, hne, hpe⟩
  · rintro (⟨rfl, hstore, hne, q, hq, hpe⟩ | ⟨rfl, hstore, hne, hpe⟩)
    · exact ⟨rfl, hstore, hne, q, .inl hq, hpe⟩
    · exact ⟨rfl, hstore, hne, p, .inr rfl, hpe⟩

/-- The from-read edges of one process. -/
theorem PassInv.addFromReads (h : PassInv T g id vc done s) (htables : Tables T g)
    (hT : T.Wf) (hid : id < T.length) {p pe : Nat} (hpe : pe < T.length)
    (hnv : g.newlyVisible (g.ev id) id (g.clockOf id) vc p = some pe)
    (hstore : (T.acc id).isStore) :
    Grows T.length g (addFromReads s pe id).g (FromReadEdge T g id vc (done ++ [p]))
        (FromReadEdge T g id vc (done ++ [p])) (fun _ => False) ∧
      ((addFromReads s pe id).newIn = false →
        ∀ a e, ¬ FromReadEdge T g id vc (done ++ [p]) a e) := by
  have hev : s.g.ev pe = T.eventOf pe := by
    unfold SaturatedGraph.ev
    rw [h.grows.events_eq]
    exact htables.ev hpe
  have hmem : ∀ r, r ∈ (s.g.ev pe).readers.filter (· ≠ id) ↔
      (T.acc r).readFrom = some pe ∧ r ≠ id := by
    intro r
    rw [hev, List.mem_filter]
    show r ∈ T.readers pe ∧ _ ↔ _
    rw [Trace.mem_readers hT]
    simp
  have hedge : ∀ a e, FromReadEdge T g id vc (done ++ [p]) a e ↔
      FromReadEdge T g id vc done a e ∨
        (a ∈ (s.g.ev pe).readers.filter (· ≠ id) ∧ e = id) := by
    intro a e
    rw [fromReadEdge_concat, hmem, hnv]
    refine or_congr Iff.rfl ?_
    constructor
    · rintro ⟨rfl, -, hne, pe', hpe', hrf⟩
      obtain rfl := Option.some.inj hpe'
      exact ⟨⟨hrf, hne⟩, rfl⟩
    · rintro ⟨⟨hrf, hne⟩, rfl⟩
      exact ⟨rfl, hstore, hne, pe, rfl, hrf⟩
  have hreaders := grows_foldl_recordEdge (g := s.g) h.grows.slots hid
    (l := (s.g.ev pe).readers.filter (· ≠ id)) (fun r hr =>
      Trace.lt_length_of_isLoad (hT.isLoad r pe ((hmem r).mp hr).1))
  rw [addFromReads_eq]
  constructor
  · exact (h.grows.trans hreaders).congr (fun a e => (hedge a e).symm)
      (fun a e => (hedge a e).symm) (by simp)
  · intro hnew a e ha
    obtain ⟨hold, hempty⟩ := Bool.or_eq_false_iff.mp hnew
    rcases (hedge a e).mp ha with ha | ⟨ha, -⟩
    · exact h.newIn hold a e ha
    · simp only [Bool.not_eq_false', List.isEmpty_iff] at hempty
      rw [hempty] at ha
      cases ha

/-- A process without a new visible store. -/
theorem PassInv.concat_none (h : PassInv T g id vc done s) {p : Nat}
    (hnv : g.newlyVisible (g.ev id) id (g.clockOf id) vc p = none) :
    PassInv T g id vc (done ++ [p]) s := by
  have hedge : ∀ a e, FromReadEdge T g id vc (done ++ [p]) a e ↔
      FromReadEdge T g id vc done a e := by
    intro a e
    rw [fromReadEdge_concat, hnv]
    simp
  exact {
    grows := h.grows.congr (fun a e => (hedge a e).symm) (fun a e => (hedge a e).symm)
      fun _ => Iff.rfl
    newIn := fun hnew a e => by
      rw [hedge]
      exact h.newIn hnew a e
    newEdges := fun a w => by
      rw [h.newEdges]
      simp [or_and_right, exists_or, hnv]
    readFrom := fun hload q hq hne => by
      rcases List.mem_append.mp hq with hq | hq
      · exact h.readFrom hload q hq hne
      · rw [List.mem_singleton.mp hq] at hne
        exact absurd hnv hne }

/-- The edges of a process with the new visible store `pe`. -/
theorem PassInv.concat_some (h : PassInv T g id vc done s) {p pe : Nat}
    (hnv : g.newlyVisible (g.ev id) id (g.clockOf id) vc p = some pe) {s' : Pass}
    (hgrows : Grows T.length g s'.g (FromReadEdge T g id vc (done ++ [p]))
      (FromReadEdge T g id vc (done ++ [p])) fun _ => False)
    (hnewIn : s'.newIn = false → ∀ a e, ¬ FromReadEdge T g id vc (done ++ [p]) a e)
    (hnewEdges : ∀ a w, (a, w) ∈ s'.newEdges ↔ (a, w) ∈ s.newEdges ∨
      ((T.acc id).isLoad ∧ (T.acc id).readFrom = some w ∧ pe ≠ w ∧ a = pe))
    (hread : (T.acc id).isLoad → (T.acc id).readFrom ≠ none) :
    PassInv T g id vc (done ++ [p]) s' where
  grows := hgrows
  newIn := hnewIn
  newEdges a w := by
    rw [hnewEdges, h.newEdges]
    simp only [List.mem_append, List.mem_singleton, or_and_right, exists_or, exists_eq_left,
      hnv, Option.some.injEq, and_or_left]
    refine or_congr Iff.rfl ?_
    constructor
    · rintro ⟨hload, hrf, hne, rfl⟩
      exact ⟨hload, hrf, hne, rfl⟩
    · rintro ⟨hload, hrf, hne, rfl⟩
      exact ⟨hload, hrf, hne, rfl⟩
  readFrom hload _ _ _ := hread hload

/-- One process. -/
theorem PassInv.concat (h : PassInv T g id vc done s) (htables : Tables T g) (hT : T.Wf)
    (hid : id < T.length) {p : Nat} {s' : Pass}
    (hlt : ∀ pe, g.newlyVisible (g.ev id) id (g.clockOf id) vc p = some pe → pe < T.length)
    (hvisit : SaturatedGraph.visitPid id (g.ev id) (g.clockOf id) vc s p = .ok s') :
    PassInv T g id vc (done ++ [p]) s' := by
  have hload : (g.ev id).isLoad = (T.acc id).isLoad := by
    rw [htables.ev hid]
    rfl
  have hstore : (g.ev id).isStore = (T.acc id).isStore := by
    rw [htables.ev hid]
    rfl
  have hrf : (g.ev id).readFrom = (T.acc id).readFrom := by
    rw [htables.ev hid]
    rfl
  unfold SaturatedGraph.visitPid at hvisit
  rw [newlyVisible_congr h.grows.rest_eq, hload, hstore, hrf] at hvisit
  cases hnv : g.newlyVisible (g.ev id) id (g.clockOf id) vc p with
  | none =>
    rw [hnv] at hvisit
    obtain rfl : s = s' := by simpa using hvisit
    exact h.concat_none hnv
  | some pe =>
    rw [hnv] at hvisit
    -- the state after the from-read edges
    obtain ⟨s₁, hs₁, hgrows, hnewIn, hnewEdges⟩ : ∃ s₁ : Pass,
        s₁ = (if (T.acc id).isStore then SaturatedGraph.addFromReads s pe id else s) ∧
        Grows T.length g s₁.g (FromReadEdge T g id vc (done ++ [p]))
          (FromReadEdge T g id vc (done ++ [p])) (fun _ => False) ∧
        (s₁.newIn = false → ∀ a e, ¬ FromReadEdge T g id vc (done ++ [p]) a e) ∧
        s₁.newEdges = s.newEdges := by
      refine ⟨_, rfl, ?_⟩
      cases hst : (T.acc id).isStore with
      | true =>
        have hadd := h.addFromReads htables hT hid (hlt pe hnv) hnv hst
        rw [if_pos rfl]
        exact ⟨hadd.1, hadd.2, by rw [addFromReads_eq]⟩
      | false =>
        have hedge : ∀ a e, FromReadEdge T g id vc (done ++ [p]) a e ↔
            FromReadEdge T g id vc done a e := by
          intro a e
          rw [fromReadEdge_concat]
          simp [hst]
        rw [if_neg Bool.false_ne_true]
        refine ⟨h.grows.congr (fun a e => (hedge a e).symm) (fun a e => (hedge a e).symm)
          fun _ => Iff.rfl, fun hnew a e => ?_, rfl⟩
        rw [hedge]
        exact h.newIn hnew a e
    simp only [← hs₁] at hvisit
    cases hl : (T.acc id).isLoad with
    | false =>
      rw [hl] at hvisit
      obtain rfl : s₁ = s' := by simpa using hvisit
      exact h.concat_some hnv hgrows hnewIn (by simp [hnewEdges, hl]) (by simp [hl])
    | true =>
      rw [hl, if_pos rfl] at hvisit
      cases hw : (T.acc id).readFrom with
      | none =>
        rw [hw] at hvisit
        cases hvisit
      | some w =>
        rw [hw] at hvisit
        by_cases hpew : pe = w
        · obtain rfl : s₁ = s' := by simpa [hpew] using hvisit
          refine h.concat_some hnv hgrows hnewIn ?_ (by simp [hw])
          intro a w'
          rw [hnewEdges, hw, Option.some.injEq]
          refine (or_iff_left ?_).symm
          rintro ⟨-, rfl, hne, -⟩
          exact hne hpew
        · obtain rfl : { s₁ with newEdges := s₁.newEdges ++ [(pe, w)] } = s' := by
            simpa [hpew] using hvisit
          refine h.concat_some hnv hgrows hnewIn ?_ (by simp [hw])
          intro a w'
          rw [List.mem_append, List.mem_singleton, hnewEdges, hw, Option.some.injEq,
            Prod.mk.injEq]
          refine or_congr Iff.rfl ?_
          constructor
          · rintro ⟨rfl, rfl⟩
            exact ⟨hl, rfl, hpew, rfl⟩
          · rintro ⟨-, rfl, -, rfl⟩
            exact ⟨rfl, rfl⟩

/-- A load of the initial value that sees a store. -/
theorem PassInv.error (h : PassInv T g id vc done s) (htables : Tables T g)
    (hid : id < T.length) {p : Nat} {g' : SaturatedGraph}
    (hvisit : SaturatedGraph.visitPid id (g.ev id) (g.clockOf id) vc s p = .error g') :
    (T.acc id).isLoad ∧ (T.acc id).readFrom = none ∧
      ∃ p pe, g.newlyVisible (g.ev id) id (g.clockOf id) vc p = some pe := by
  unfold SaturatedGraph.visitPid at hvisit
  rw [newlyVisible_congr h.grows.rest_eq] at hvisit
  cases hnv : g.newlyVisible (g.ev id) id (g.clockOf id) vc p with
  | none =>
    rw [hnv] at hvisit
    cases hvisit
  | some pe =>
    rw [hnv, htables.ev hid] at hvisit
    cases hl : (T.acc id).isLoad with
    | false =>
      simp [Trace.eventOf, hl] at hvisit
    | true =>
      cases hrf : (T.acc id).readFrom with
      | none => exact ⟨rfl, rfl, p, pe, hnv⟩
      | some w =>
        simp only [Trace.eventOf, hl, hrf, if_true] at hvisit
        split at hvisit <;> cases hvisit

end Pass

/-- The whole loop over the processes. -/
theorem foldlM_visitPid (htables : Tables T g) (hslots : g.Slots T.length) (hT : T.Wf)
    {id : Nat} (hid : id < T.length) {vc : Clock}
    (hlt : ∀ p pe, g.newlyVisible (g.ev id) id (g.clockOf id) vc p = some pe →
      pe < T.length) (l : List Nat) :
    (∀ s, l.foldlM (SaturatedGraph.visitPid id (g.ev id) (g.clockOf id) vc) ⟨g, false, []⟩ =
        .ok s → PassInv T g id vc l s) ∧
      ∀ g', l.foldlM (SaturatedGraph.visitPid id (g.ev id) (g.clockOf id) vc)
          ⟨g, false, []⟩ = .error g' →
        (T.acc id).isLoad ∧ (T.acc id).readFrom = none ∧
          ∃ p pe, g.newlyVisible (g.ev id) id (g.clockOf id) vc p = some pe := by
  have hstart : PassInv T g id vc [] ⟨g, false, []⟩ := {
    grows := (Grows.refl hslots).congr (by simp [FromReadEdge]) (by simp [FromReadEdge])
      (by simp)
    newIn := fun _ a e h => by simp [FromReadEdge] at h
    newEdges := fun a w => by simp
    readFrom := fun _ p hp => by cases hp }
  exact foldlM_except (P := PassInv T g id vc)
    (fun done p s s' h hvisit => h.concat htables hT hid (hlt p) hvisit)
    (fun done p s g' h hvisit => h.error htables hid hvisit) l [] _ hstart

/-! ## One round -/

/-- The fields that saturation does not change. -/
def SaturatedGraph.static (g : SaturatedGraph) : SaturatedGraph :=
  { g.rest with vclocks := [] }

/-- What a round does: the edges `new`, the clock `vc` for `id`, and every
event whose predecessors changed in the queue. -/
structure Round (T : Trace) (g g' : SaturatedGraph) (id : Nat) (vc : Clock)
    (new : Nat → Nat → Prop) : Prop where
  rest_eq : g'.rest = ({ g with vclocks := g.vclocks.set id vc } : SaturatedGraph).rest
  slots : g'.Slots T.length
  mem_inOf : ∀ a e, a ∈ g'.inOf e ↔ a ∈ g.inOf e ∨ new a e
  mem_outOf : ∀ a e, e ∈ g'.outOf a ↔ e ∈ g.outOf a ∨ new a e
  queue_old : ∀ x ∈ g.wqQueue, x ∈ g'.wqQueue
  queue_new : ∀ a e, new a e → e ∈ g'.wqQueue
  queue_succ : ∀ e, g.Edge id e → e ∈ g'.wqQueue
  queue_lt : ∀ x ∈ g'.wqQueue, x < T.length

/-- The edges of a round. -/
def RoundEdge (T : Trace) (g : SaturatedGraph) (id : Nat) (vc : Clock) (done : List Nat)
    (s : Pass) (a e : Nat) : Prop :=
  FromReadEdge T g id vc done a e ∨ (a, e) ∈ s.newEdges

/-- A direct successor is a reader or has an outgoing edge to it. -/
theorem Inv.successor_of_edge (h : Inv T extra u g) (hT : T.Wf) {id e : Nat}
    (hedge : g.Edge id e) :
    ((T.acc id).isStore ∧ e ∈ T.readers id) ∨ e ∈ g.outOf id := by
  rcases (h.edge_iff id e).mp hedge with hpo | hrf | hin
  · exact .inr ((h.mem_outOf id e).mpr (.inr hpo))
  · exact .inl ⟨hT.isStore e id hrf, (Trace.mem_readers hT).mpr hrf⟩
  · exact .inr ((h.mem_outOf id e).mpr (.inl hin))

/-- The end of a round. -/
theorem round_endRound (h : Inv T extra u g) (hT : T.Wf) {id : Nat} (hid : id < T.length)
    {vc : Clock} {done : List Nat} {s : Pass} (hpass : PassInv T g id vc done s)
    (hlt : ∀ a w, (a, w) ∈ s.newEdges → a < T.length) :
    Round T g (endRound s id (g.ev id) vc) id vc (RoundEdge T g id vc done s) := by
  have hev : g.ev id = T.eventOf id := h.ev hid
  have hsucc := grows_addSuccessorsToWq hpass.grows.slots id (g.ev id)
  -- the graph with the new clock
  obtain ⟨g₁, hg₁⟩ : ∃ g₁ : SaturatedGraph, g₁ = { s.g.addSuccessorsToWq id (g.ev id) with
      vclocks := (s.g.addSuccessorsToWq id (g.ev id)).vclocks.set id vc } := ⟨_, rfl⟩
  have hslots₁ : g₁.Slots T.length := by
    rw [hg₁]
    exact ⟨hsucc.slots.ins, hsucc.slots.outs, hsucc.slots.queue.congr rfl rfl⟩
  have hrest₁ : g₁.rest = ({ g with vclocks := g.vclocks.set id vc } : SaturatedGraph).rest := by
    have hrest := hsucc.rest_eq.trans hpass.grows.rest_eq
    have hclocks := congrArg (fun r : SaturatedGraph =>
      { r with vclocks := r.vclocks.set id vc }) hrest
    rw [hg₁]
    exact hclocks
  have hfirst : ∃ work : Nat → Prop, Grows T.length g₁
      (if s.newIn then g₁.wqAddFirst id else g₁) (fun _ _ => False) (fun _ _ => False) work ∧
      (s.newIn = true → work id) ∧ ∀ x, work x → x = id := by
    cases s.newIn with
    | true => exact ⟨_, grows_wqAddFirst hslots₁ id, fun _ => rfl, fun _ hx => hx⟩
    | false => exact ⟨_, Grows.refl hslots₁, fun h => (by cases h), fun _ hx => hx.elim⟩
  obtain ⟨work, hfirst, hwork, hwork_eq⟩ := hfirst
  have hedges_lt : ∀ p ∈ s.newEdges, p.1 < T.length ∧ p.2 < T.length := by
    rintro ⟨a, w⟩ hp
    have hrf := ((hpass.newEdges a w).mp hp).2.1
    exact ⟨hlt a w hp, Nat.lt_trans (hT.lt_of_readFrom id w hrf) hid⟩
  have hedges := grows_addEdges hfirst.slots hedges_lt
  have hend : endRound s id (g.ev id) vc =
      (if s.newIn then g₁.wqAddFirst id else g₁).addEdges s.newEdges := by
    rw [hg₁]
    rfl
  have hin₁ : ∀ a e, a ∈ g₁.inOf e ↔ a ∈ (s.g.addSuccessorsToWq id (g.ev id)).inOf e := by
    intro a e
    rw [hg₁]
    rfl
  have hout₁ : ∀ a e, e ∈ g₁.outOf a ↔ e ∈ (s.g.addSuccessorsToWq id (g.ev id)).outOf a := by
    intro a e
    rw [hg₁]
    rfl
  have hqueue₁ : ∀ x, x ∈ g₁.wqQueue ↔ x ∈ g.wqQueue ∨
      ((g.ev id).isStore ∧ x ∈ (g.ev id).readers) ∨ x ∈ s.g.outOf id := by
    intro x
    rw [hg₁]
    have hmem := hsucc.mem_queue x
    rw [hpass.grows.mem_queue, or_false] at hmem
    exact hmem
  have hqueue : ∀ x, x ∈ (endRound s id (g.ev id) vc).wqQueue ↔
      (x ∈ g₁.wqQueue ∨ work x) ∨ ∃ a, (a, x) ∈ s.newEdges := by
    intro x
    rw [hend, hedges.mem_queue, hfirst.mem_queue]
  refine ⟨?_, ?_, ?_, ?_, ?_, ?_, ?_, ?_⟩
  · rw [hend]
    exact (hedges.rest_eq.trans hfirst.rest_eq).trans hrest₁
  · rw [hend]
    exact hedges.slots
  · intro a e
    rw [hend, hedges.mem_inOf, hfirst.mem_inOf, or_false, hin₁, hsucc.mem_inOf, or_false,
      hpass.grows.mem_inOf, or_assoc]
    rfl
  · intro a e
    rw [hend, hedges.mem_outOf, hfirst.mem_outOf, or_false, hout₁, hsucc.mem_outOf, or_false,
      hpass.grows.mem_outOf, or_assoc]
    rfl
  · intro x hx
    rw [hqueue, hqueue₁]
    exact .inl (.inl (.inl hx))
  · rintro a e (hnew | hnew)
    · rw [hqueue]
      obtain rfl := hnew.1
      refine .inl (.inr (hwork ?_))
      by_contra hfalse
      exact hpass.newIn (by simpa using hfalse) a e hnew
    · rw [hqueue]
      exact .inr ⟨a, hnew⟩
  · intro e hedge
    rw [hqueue, hqueue₁, hev]
    rcases h.successor_of_edge hT hedge with hread | hout
    · exact .inl (.inl (.inr (.inl hread)))
    · exact .inl (.inl (.inr (.inr ((hpass.grows.mem_outOf id e).mpr (.inl hout)))))
  · intro x hx
    rw [hqueue, hqueue₁, hev] at hx
    rcases hx with ((hx | ⟨-, hx⟩ | hx) | hx) | ⟨a, hx⟩
    · exact h.queue_lt x hx
    · exact Trace.lt_length_of_isLoad (hT.isLoad x id ((Trace.mem_readers hT).mp hx))
    · rcases (hpass.grows.mem_outOf id x).mp hx with hx | hx
      · rcases (h.mem_outOf id x).mp hx with hx | hx
        · exact (h.mem_inOf_lt id x hx).2
        · exact hx.1
      · rw [hx.1]
        exact hid
    · rw [hwork_eq x hx]
      exact hid
    · exact (hedges_lt (a, x) hx).2

/-! ## The invariant over a round -/

/-- The fresh clock of `e` grows with the edges to `e` and the clocks of its
predecessors. -/
theorem fresh_mono {g g' : SaturatedGraph} {e : Nat} (hpid : (g'.ev e).pid = (g.ev e).pid)
    (hindex : (g'.ev e).index = (g.ev e).index)
    (hpred : ∀ a, g.Edge a e → g'.Edge a e ∧ ∀ p, g.clk a p ≤ g'.clk a p) (p : Nat) :
    get (g.fresh e) p ≤ get (g'.fresh e) p := by
  rw [le_fresh, hpid, hindex]
  rcases (g.le_fresh e p _).mp (Nat.le_refl _) with hown | ⟨a, hedge, hle⟩
  · exact .inl hown
  · exact .inr ⟨a, (hpred a hedge).1, Nat.le_trans hle ((hpred a hedge).2 p)⟩

namespace Round

variable {g' : SaturatedGraph} {id : Nat} {vc : Clock} {new : Nat → Nat → Prop}

theorem ev_eq (hr : Round T g g' id vc new) (e : Nat) : g'.ev e = g.ev e := by
  have heq := congrArg SaturatedGraph.events hr.rest_eq
  exact congrArg (fun l : List Event => l.getD e default) heq

theorem tables (hr : Round T g g' id vc new) (h : Tables T g) : Tables T g' where
  events := by
    have heq := congrArg SaturatedGraph.events hr.rest_eq
    exact heq.trans h.events
  threads p := by
    have heq := congrArg SaturatedGraph.eventsByPid hr.rest_eq
    exact (congrArg (fun l : List (List Nat) => l.getD p []) heq).trans (h.threads p)
  writes p a := by
    have heq := congrArg SaturatedGraph.writesByProcessAndAddress hr.rest_eq
    exact (congrArg (fun l : List (Map SymAddr (List Nat)) => getD (l.getD p []) a []) heq).trans
      (h.writes p a)

theorem static_eq (hr : Round T g g' id vc new) : g'.static = g.static := by
  have heq := congrArg (fun r : SaturatedGraph => { r with vclocks := [] }) hr.rest_eq
  exact heq

theorem vclocks_eq (hr : Round T g g' id vc new) : g'.vclocks = g.vclocks.set id vc := by
  have heq := congrArg SaturatedGraph.vclocks hr.rest_eq
  exact heq

theorem clockOf_eq (hr : Round T g g' id vc new) (hid : id < g.vclocks.length) (e : Nat) :
    g'.clockOf e = if e = id then vc else g.clockOf e := by
  unfold SaturatedGraph.clockOf
  rw [hr.vclocks_eq, GetD.getD_set _ _ hid]

theorem edge_iff (hr : Round T g g' id vc new) (a e : Nat) :
    g'.Edge a e ↔ g.Edge a e ∨ new a e := by
  unfold SaturatedGraph.Edge SaturatedGraph.preds
  rw [hr.ev_eq, List.mem_append, List.mem_append (t := g.inOf e), hr.mem_inOf, or_assoc]

theorem path_mono (hr : Round T g g' id vc new) {a e : Nat} (h : TransGen g.Edge a e) :
    TransGen g'.Edge a e :=
  TransGen.mono (fun a e hedge => (hr.edge_iff a e).mpr (.inl hedge)) _ _ h

theorem refl_path_mono (hr : Round T g g' id vc new) {a e : Nat}
    (h : ReflTransGen g.Edge a e) : ReflTransGen g'.Edge a e :=
  ReflTransGen.mono (fun a e hedge => (hr.edge_iff a e).mpr (.inl hedge)) _ _ h

end Round

section Round

variable {g' : SaturatedGraph} {id : Nat} {new : Nat → Nat → Prop}

/-- Clocks grow in a round. -/
theorem Inv.clk_le_round (h : Inv T extra u g) (hid : id < T.length)
    (hr : Round T g g' id (g.fresh id) new) (e p : Nat) : g.clk e p ≤ g'.clk e p := by
  unfold SaturatedGraph.clk
  rw [hr.clockOf_eq (h.vclocks ▸ hid)]
  split
  · next he =>
    subst he
    exact h.le_fresh e hid p
  · exact Nat.le_refl _

theorem Inv.fresh_le_round (h : Inv T extra u g) (hid : id < T.length)
    (hr : Round T g g' id (g.fresh id) new) (e p : Nat) :
    get (g.fresh e) p ≤ get (g'.fresh e) p :=
  fresh_mono (by rw [hr.ev_eq]) (by rw [hr.ev_eq])
    (fun a hedge => ⟨(hr.edge_iff a e).mpr (.inl hedge), h.clk_le_round hid hr a⟩) p

/-- A round keeps the invariant. -/
theorem Inv.round (h : Inv T extra u g) (hid : id < T.length)
    (hr : Round T g g' id (g.fresh id) new)
    (hforced : ∀ a e, new a e → T.Forced extra a e)
    (hlt : ∀ a e, new a e → a < T.length ∧ e < T.length) (hsat : Saturated T u g' id) :
    Inv T extra u g' where
  toTables := hr.tables h.toTables
  slots := hr.slots
  vclocks := by
    rw [hr.vclocks_eq, List.length_set, h.vclocks]
  mem_inOf_lt a e ha := by
    rcases (hr.mem_inOf a e).mp ha with ha | ha
    · exact h.mem_inOf_lt a e ha
    · exact hlt a e ha
  mem_outOf a e := by
    rw [hr.mem_outOf, hr.mem_inOf, h.mem_outOf, or_right_comm]
  queue_lt := hr.queue_lt
  forced a e ha := by
    rcases (hr.mem_inOf a e).mp ha with ha | ha
    · exact h.forced a e ha
    · exact hforced a e ha
  initial a e ha := (hr.mem_inOf a e).mpr (.inl (h.initial a e ha))
  extra_mem a e ha := (hr.mem_inOf a e).mpr (.inl (h.extra_mem a e ha))
  sound e p hpos := by
    have hclk : SeenFrom T g (g'.clockOf e) e := by
      rw [hr.clockOf_eq (h.vclocks ▸ hid)]
      split
      · next he =>
        subst he
        exact h.seenFrom_fresh hid
      · exact h.seenFrom_clockOf e
    obtain ⟨a, hpath, ha⟩ := hclk p hpos
    exact ⟨a, hr.refl_path_mono hpath, ha⟩
  le_fresh e he p := by
    by_cases heq : e = id
    · subst heq
      have hclk : g'.clockOf e = g.fresh e := by
        rw [hr.clockOf_eq (h.vclocks ▸ hid), if_pos rfl]
      unfold SaturatedGraph.clk
      rw [hclk]
      exact h.fresh_le_round hid hr e p
    · have hclk : g'.clockOf e = g.clockOf e := by
        rw [hr.clockOf_eq (h.vclocks ▸ hid), if_neg heq]
      unfold SaturatedGraph.clk
      rw [hclk]
      exact Nat.le_trans (h.le_fresh e he p) (h.fresh_le_round hid hr e p)
  saturated e he := by
    by_cases heq : e = id
    · rw [heq]
      exact hsat
    · have hclk : g'.clockOf e = g.clockOf e := by
        rw [hr.clockOf_eq (h.vclocks ▸ hid), if_neg heq]
      have hold := h.saturated e he
      constructor
      · rw [hclk]
        exact fun hstore pe hpe r hru hrf hne =>
          hr.path_mono (hold.store hstore pe hpe r hru hrf hne)
      · rw [hclk]
        intro hload pe hpe
        obtain ⟨w, hw, hpew⟩ := hold.load hload pe hpe
        exact ⟨w, hw, hpew.imp_right hr.path_mono⟩

/-- An event outside the queue is settled after a round. -/
theorem Inv.settled_round (h : Inv T extra u g) (hid : id < T.length)
    (hr : Round T g g' id (g.fresh id) new)
    (hsettled : ∀ e < T.length, e ∉ g.wqQueue → e ≠ id → g.Settled e)
    (hcycle : ∀ a, g.Edge a id → ∃ p, g.clk a p ≠ get (g.fresh id) p) (e : Nat)
    (he : e < T.length) (hqueue : e ∉ g'.wqQueue) : g'.Settled e := by
  have hnew : ∀ a, ¬ new a e := fun a ha => hqueue (hr.queue_new a e ha)
  have hedge : ∀ a, g'.Edge a e ↔ g.Edge a e := by
    intro a
    rw [hr.edge_iff]
    exact or_iff_left (hnew a)
  have hpred : ∀ a, g.Edge a e → g'.clockOf a = g.clockOf a := by
    intro a ha
    rw [hr.clockOf_eq (h.vclocks ▸ hid), if_neg]
    rintro rfl
    exact hqueue (hr.queue_succ e ha)
  have hfresh : ∀ p, get (g'.fresh e) p = get (g.fresh e) p := by
    intro p
    refine Nat.le_antisymm ?_ (h.fresh_le_round hid hr e p)
    refine fresh_mono (by rw [hr.ev_eq]) (by rw [hr.ev_eq])
      (fun a ha => ⟨(hedge a).mp ha, fun p => ?_⟩) p
    unfold SaturatedGraph.clk
    rw [hpred a ((hedge a).mp ha)]
  have hclk : ∀ p, g'.clk e p = get (g.fresh e) p := by
    intro p
    unfold SaturatedGraph.clk
    rw [hr.clockOf_eq (h.vclocks ▸ hid)]
    split
    · next heq => rw [heq]
    · next heq =>
      exact (hsettled e he (fun hmem => hqueue (hr.queue_old e hmem)) heq).eq_fresh p
  have hne : ∀ a, g.Edge a e → ∃ p, g.clk a p ≠ get (g.fresh e) p := by
    intro a ha
    by_cases heq : e = id
    · subst heq
      exact hcycle a ha
    · have hold := hsettled e he (fun hmem => hqueue (hr.queue_old e hmem)) heq
      obtain ⟨p, hp⟩ := hold.ne_pred a ha
      rw [hold.eq_fresh] at hp
      exact ⟨p, hp⟩
  constructor
  · intro p
    rw [hclk, hfresh]
  · intro a ha
    obtain ⟨p, hp⟩ := hne a ((hedge a).mp ha)
    refine ⟨p, ?_⟩
    rw [hclk]
    unfold SaturatedGraph.clk
    rw [hpred a ((hedge a).mp ha)]
    exact hp

/-- The edges of a round are forced. -/
theorem Inv.forced_roundEdge (h : Inv T extra u g) (hT : T.Wf) (hid : id < T.length)
    {done : List Nat} {s : Pass} (hpass : PassInv T g id (g.fresh id) done s)
    (hlast : ∀ p pe, g.newlyVisible (g.ev id) id (g.clockOf id) (g.fresh id) p = some pe →
      LastVisible T (g.fresh id) id pe) {a e : Nat}
    (hnew : RoundEdge T g id (g.fresh id) done s a e) : T.Forced extra a e := by
  have hbefore : ∀ p pe, g.newlyVisible (g.ev id) id (g.clockOf id) (g.fresh id) p = some pe →
      T.Forced extra pe id := fun p pe hpe =>
    h.forced_path (h.path_of_visible hT (h.seenFrom_fresh hid) hid (hlast p pe hpe).toVisible)
  rcases hnew with ⟨rfl, hstore, hne, p, -, pe, hpe, hrf⟩ | hnew
  · have hvis := hlast p pe hpe
    have haddr : (T.acc e).addr = (T.acc a).addr :=
      hvis.storeTo.2.symm.trans (hT.addr_eq a pe hrf)
    exact .fromRead (hT.isLoad a pe hrf) hrf ⟨hstore, haddr⟩ (Ne.symm hvis.ne) (Ne.symm hne)
      (hbefore p pe hpe)
  · obtain ⟨hload, hrf, hne, p, -, hpe⟩ := (hpass.newEdges a e).mp hnew
    have hvis := hlast p a hpe
    exact .coherence hload hrf hvis.storeTo hne hvis.ne (hbefore p a hpe)

theorem Inv.roundEdge_lt (hT : T.Wf) (hid : id < T.length) {vc : Clock} {done : List Nat}
    {s : Pass} (hpass : PassInv T g id vc done s)
    (hlt : ∀ p pe, g.newlyVisible (g.ev id) id (g.clockOf id) vc p = some pe → pe < T.length)
    {a e : Nat} (hnew : RoundEdge T g id vc done s a e) : a < T.length ∧ e < T.length := by
  rcases hnew with ⟨rfl, -, -, p, -, pe, -, hrf⟩ | hnew
  · exact ⟨Trace.lt_length_of_isLoad (hT.isLoad a pe hrf), hid⟩
  · obtain ⟨-, hrf, -, p, -, hpe⟩ := (hpass.newEdges a e).mp hnew
    exact ⟨hlt p a hpe, Nat.lt_trans (hT.lt_of_readFrom id e hrf) hid⟩

/-- After a round `id` has the edges that its new clock asks for. -/
theorem Inv.saturated_round (h : Inv T extra u g) (hid : id < T.length) {s : Pass}
    (hpass : PassInv T g id (g.fresh id) (List.range (g.fresh id).length) s)
    (hr : Round T g g' id (g.fresh id)
      (RoundEdge T g id (g.fresh id) (List.range (g.fresh id).length) s))
    (hiff : ∀ p pe, g.newlyVisible (g.ev id) id (g.clockOf id) (g.fresh id) p = some pe ↔
      LastVisible T (g.fresh id) id pe ∧ (T.acc pe).pid = p ∧ g.clk id p < T.index pe) :
    Saturated T u g' id := by
  have hclk : g'.clockOf id = g.fresh id := by
    rw [hr.clockOf_eq (h.vclocks ▸ hid), if_pos rfl]
  -- a store that the old clock did not see is handled by the pass
  have hsplit : ∀ pe, LastVisible T (g.fresh id) id pe →
      LastVisible T (g.clockOf id) id pe ∨
        ∃ p ∈ List.range (g.fresh id).length,
          g.newlyVisible (g.ev id) id (g.clockOf id) (g.fresh id) p = some pe := by
    intro pe hpe
    rcases Nat.lt_or_ge (g.clk id (T.acc pe).pid) (T.index pe) with hlt | hge
    · have hpos := Nat.lt_of_lt_of_le (T.index_pos pe) hpe.index_le
      exact .inr ⟨(T.acc pe).pid, List.mem_range.mpr (lt_length_of_get_pos hpos),
        (hiff _ _).mpr ⟨hpe, rfl, hlt⟩⟩
    · exact .inl (hpe.of_le (h.le_fresh id hid) hge)
  constructor
  · rw [hclk]
    intro hstore pe hpe r hru hrf hne
    rcases hsplit pe hpe with hold | ⟨p, hp, hnv⟩
    · exact hr.path_mono ((h.saturated id hid).store hstore pe hold r hru hrf hne)
    · exact .single ((hr.edge_iff r id).mpr (.inr (.inl ⟨rfl, hstore, hne, p, hp, pe, hnv, hrf⟩)))
  · rw [hclk]
    intro hload pe hpe
    rcases hsplit pe hpe with hold | ⟨p, hp, hnv⟩
    · obtain ⟨w, hw, hpew⟩ := (h.saturated id hid).load hload pe hold
      exact ⟨w, hw, hpew.imp_right hr.path_mono⟩
    · obtain ⟨w, hw⟩ := Option.ne_none_iff_exists'.mp
        (hpass.readFrom hload p hp (by rw [hnv]; exact Option.some_ne_none pe))
      refine ⟨w, hw, ?_⟩
      by_cases hpew : pe = w
      · exact .inl hpew
      · have hmem := (hpass.newEdges pe w).mpr ⟨hload, hw, hpew, p, hp, hnv⟩
        exact .inr (.single ((hr.edge_iff pe w).mpr (.inr (.inr hmem))))

/-- An event that is neither a load nor a store asks for no edges. -/
theorem Saturated.of_none (hload : (T.acc id).isLoad = false)
    (hstore : (T.acc id).isStore = false) : Saturated T u g id where
  store h := by
    rw [hstore] at h
    cases h
  load h := by
    rw [hload] at h
    cases h

/-- A predecessor with the clock of the event is on a cycle. -/
theorem Inv.forced_of_isInCycle (h : Inv T extra u g) (hT : T.Wf) (hid : id < T.length)
    (hcycle : ∃ a, g.Edge a id ∧ ∀ p, g.clk a p = get (g.fresh id) p) :
    T.Forced extra id id := by
  obtain ⟨a, hedge, heq⟩ := hcycle
  have hown : T.index id ≤ get (g.fresh id) (T.acc id).pid := by
    rw [SaturatedGraph.le_fresh, get_single, h.ev hid]
    left
    exact Nat.le_of_eq (if_pos rfl).symm
  rw [← heq] at hown
  have hpath := h.path_of_index_le hT (h.seenFrom_clockOf a) (h.edge_lt hT hedge).1 hown
  exact h.forced_path (TransGen.tail' hpath hedge)

/-- A load of the initial value that sees a store is on a cycle. -/
theorem Inv.forced_of_initRead (h : Inv T extra u g) (hT : T.Wf) (hid : id < T.length)
    {pe : Nat} (hload : (T.acc id).isLoad) (hrf : (T.acc id).readFrom = none)
    (hvis : Visible T (g.fresh id) id pe) : T.Forced extra id id := by
  have hpath := h.path_of_visible hT (h.seenFrom_fresh hid) hid hvis
  exact .trans (.initial hload hrf hvis.storeTo hvis.ne) (h.forced_path hpath)

end Round

/-- Some clock grew. -/
structure Grown (g g' : SaturatedGraph) (id : Nat) : Prop where
  le : ∀ e p, g.clk e p ≤ g'.clk e p
  lt : ∃ p, g.clk id p < g'.clk id p

/-- One round of the main loop, for an event that was taken from the queue. -/
theorem Inv.saturateEvent (h : Inv T extra u g) (hT : T.Wf) {id : Nat} (hid : id < T.length)
    (hsettled : ∀ e < T.length, e ∉ g.wqQueue → e ≠ id → g.Settled e) :
    match g.saturateEvent id with
    | .error _ => T.Forced extra id id
    | .ok g' => Inv T extra u g' ∧ (∀ e < T.length, e ∉ g'.wqQueue → g'.Settled e) ∧
        (g' = g ∨ Grown g g' id) ∧ g'.static = g.static := by
  have hload : (g.ev id).isLoad = (T.acc id).isLoad := by
    rw [h.ev hid]
    rfl
  have hstore : (g.ev id).isStore = (T.acc id).isStore := by
    rw [h.ev hid]
    rfl
  have hjust : Justified T (g.fresh id) := by
    intro p hpos
    obtain ⟨a, hpath, ha⟩ := h.seenFrom_fresh hid p hpos
    exact ⟨a, h.lt_of_path hT hid hpath, ha⟩
  have hiff := newlyVisible_eq_some_iff h.toTables hid hjust (h.le_fresh id hid)
  have hlast : ∀ p pe, g.newlyVisible (g.ev id) id (g.clockOf id) (g.fresh id) p = some pe →
      LastVisible T (g.fresh id) id pe := fun p pe hpe => ((hiff p pe).mp hpe).1
  have hlt : ∀ p pe, g.newlyVisible (g.ev id) id (g.clockOf id) (g.fresh id) p = some pe →
      pe < T.length := fun p pe hpe => (hlast p pe hpe).storeTo.lt_length
  have hfold := foldlM_visitPid h.toTables h.slots hT hid hlt
  unfold SaturatedGraph.saturateEvent
  have hfresh : g.recomputeVc (g.ev id) (g.inOf id) = g.fresh id := rfl
  simp only [hfresh]
  by_cases hcycle : g.isInCycle (g.ev id) (g.inOf id) (g.fresh id) = true
  · rw [if_pos hcycle]
    exact h.forced_of_isInCycle hT hid ((g.isInCycle_iff id _).mp hcycle)
  rw [if_neg hcycle]
  have hne : ∀ a, g.Edge a id → ∃ p, g.clk a p ≠ get (g.fresh id) p := by
    intro a ha
    by_contra hall
    push Not at hall
    exact hcycle ((g.isInCycle_iff id _).mpr ⟨a, ha, hall⟩)
  by_cases hsame : same (g.fresh id) (g.clockOf id) = true
  · rw [if_pos hsame]
    have heq : ∀ p, g.clk id p = get (g.fresh id) p := fun p => (same_iff.mp hsame p).symm
    refine ⟨h, fun e he hqueue => ?_, .inl rfl, rfl⟩
    by_cases heid : e = id
    · subst heid
      refine ⟨heq, fun a ha => ?_⟩
      obtain ⟨p, hp⟩ := hne a ha
      rw [← heq] at hp
      exact ⟨p, hp⟩
    · exact hsettled e he hqueue heid
  rw [if_neg hsame]
  have hgrown : ∀ {g' new}, Round T g g' id (g.fresh id) new → Grown g g' id := by
    intro g' new hr
    refine ⟨h.clk_le_round hid hr, ?_⟩
    by_contra hnone
    push Not at hnone
    refine hsame (same_iff.mpr fun p => ?_)
    have hge := hnone p
    have hle := h.le_fresh id hid p
    have hclk : g'.clk id p = get (g.fresh id) p := by
      unfold SaturatedGraph.clk
      rw [hr.clockOf_eq (h.vclocks ▸ hid), if_pos rfl]
    rw [hclk] at hge
    exact Nat.le_antisymm hge hle
  have hround : ∀ {done s}, PassInv T g id (g.fresh id) done s →
      (∀ {g'}, Round T g g' id (g.fresh id) (RoundEdge T g id (g.fresh id) done s) →
        Saturated T u g' id) →
      Inv T extra u (endRound s id (g.ev id) (g.fresh id)) ∧
        (∀ e < T.length, e ∉ (endRound s id (g.ev id) (g.fresh id)).wqQueue →
          (endRound s id (g.ev id) (g.fresh id)).Settled e) ∧
        (endRound s id (g.ev id) (g.fresh id) = g ∨
          Grown g (endRound s id (g.ev id) (g.fresh id)) id) ∧
        (endRound s id (g.ev id) (g.fresh id)).static = g.static := by
    intro done s hpass hsat
    have hr := round_endRound h hT hid hpass fun a w ha => by
      obtain ⟨-, -, -, p, -, hpe⟩ := (hpass.newEdges a w).mp ha
      exact hlt p a hpe
    exact ⟨h.round hid hr (fun a e ha => h.forced_roundEdge hT hid hpass hlast ha)
        (fun a e ha => Inv.roundEdge_lt hT hid hpass hlt ha) (hsat hr),
      h.settled_round hid hr hsettled hne, .inr (hgrown hr), hr.static_eq⟩
  by_cases hkind : ((g.ev id).isLoad || (g.ev id).isStore) = true
  · rw [if_pos hkind]
    cases hs : (List.range (g.fresh id).length).foldlM
        (visitPid id (g.ev id) (g.clockOf id) (g.fresh id)) ⟨g, false, []⟩ with
    | error g' =>
      obtain ⟨hl, hrf, p, pe, hpe⟩ := (hfold _).2 g' hs
      exact h.forced_of_initRead hT hid hl hrf (hlast p pe hpe).toVisible
    | ok s =>
      have hpass := (hfold _).1 s hs
      exact hround hpass fun hr => h.saturated_round hid hpass hr hiff
  · rw [if_neg hkind]
    have hnone := Bool.or_eq_false_iff.mp (Bool.not_eq_true _ ▸ hkind)
    have hpass := (hfold []).1 ⟨g, false, []⟩ rfl
    exact hround hpass fun _ => .of_none (hload ▸ hnone.1) (hstore ▸ hnone.2)

/-! ## The main loop -/

/-- The pairs of events of which the clock of the second counts the first. -/
def seen (T : Trace) (g : SaturatedGraph) : Finset (Nat × Nat) :=
  (Finset.range T.length ×ˢ Finset.range T.length).filter fun x =>
    T.index x.1 ≤ g.clk x.2 (T.acc x.1).pid

theorem card_seen_le (T : Trace) (g : SaturatedGraph) :
    (seen T g).card ≤ T.length * T.length := by
  have hle := Finset.card_filter_le (Finset.range T.length ×ˢ Finset.range T.length) fun x =>
    T.index x.1 ≤ g.clk x.2 (T.acc x.1).pid
  rwa [Finset.card_product, Finset.card_range] at hle

theorem Grown.card_lt {g' : SaturatedGraph} {id : Nat} (hgrown : Grown g g' id)
    (h : Inv T extra u g') (hT : T.Wf) (hid : id < T.length) :
    (seen T g).card < (seen T g').card := by
  obtain ⟨p, hp⟩ := hgrown.lt
  obtain ⟨a, hpath, rfl, hindex⟩ := h.seenFrom_clockOf id p (by
    show 0 < g'.clk id p
    omega)
  refine Finset.card_lt_card (Finset.ssubset_iff_of_subset ?_ |>.mpr ⟨(a, id), ?_, ?_⟩)
  · intro x hx
    rw [seen, Finset.mem_filter] at hx ⊢
    exact ⟨hx.1, Nat.le_trans hx.2 (hgrown.le _ _)⟩
  · rw [seen, Finset.mem_filter, Finset.mem_product, Finset.mem_range, Finset.mem_range]
    exact ⟨⟨h.lt_of_path hT hid hpath, hid⟩, Nat.le_of_eq hindex⟩
  · rw [seen, Finset.mem_filter]
    rintro ⟨-, hle⟩
    have hlt : g.clk id (T.acc a).pid < T.index a := by
      rw [hindex]
      exact hp
    exact Nat.not_le.mpr hlt hle

/-- The invariant after the front element left the queue. -/
theorem Inv.wqPop (h : Inv T extra u g) {id : Nat} {rest : List Nat}
    (hqueue : g.wqQueue = id :: rest) : Inv T extra u (g.wqPop id rest) where
  toTables := ⟨h.events, h.threads, h.writes⟩
  slots := slots_wqPop h.slots hqueue
  vclocks := h.vclocks
  mem_inOf_lt := h.mem_inOf_lt
  mem_outOf := h.mem_outOf
  queue_lt x hx := h.queue_lt x (hqueue ▸ List.mem_cons_of_mem _ hx)
  forced := h.forced
  initial := h.initial
  extra_mem := h.extra_mem
  sound := h.sound
  le_fresh := h.le_fresh
  saturated e he := ⟨(h.saturated e he).store, (h.saturated e he).load⟩

/-- The invariant when the set of queued events is cleared. -/
theorem Inv.clear (h : Inv T extra u g) (hqueue : g.wqQueue = []) :
    Inv T extra u { g with wqSet := [] } where
  toTables := ⟨h.events, h.threads, h.writes⟩
  slots := {
    ins := h.slots.ins
    outs := h.slots.outs
    queue := {
      nodup := h.slots.queue.nodup
      queued_iff := fun x => by simp [SaturatedGraph.queued, hqueue] } }
  vclocks := h.vclocks
  mem_inOf_lt := h.mem_inOf_lt
  mem_outOf := h.mem_outOf
  queue_lt := h.queue_lt
  forced := h.forced
  initial := h.initial
  extra_mem := h.extra_mem
  sound := h.sound
  le_fresh := h.le_fresh
  saturated e he := ⟨(h.saturated e he).store, (h.saturated e he).load⟩

/-- What the verdict of the main loop means. -/
def Verdict (T : Trace) (extra : Nat → Nat → Prop) (u : Nat) (ok : Bool)
    (g g' : SaturatedGraph) : Prop :=
  if ok then Inv T extra u g' ∧ g'.wqQueue = [] ∧ (∀ e < T.length, g'.Settled e) ∧
    g'.static = g.static
  else ∃ e, T.Forced extra e e

theorem Verdict.trans {ok : Bool} {g₀ g₁ g₂ : SaturatedGraph}
    (h : Verdict T extra u ok g₁ g₂) (hstatic : g₁.static = g₀.static) :
    Verdict T extra u ok g₀ g₂ := by
  unfold Verdict at h ⊢
  rw [hstatic] at h
  exact h

/-- The main loop ends with the right verdict. -/
theorem Inv.saturateLoop (hT : T.Wf) (h : Inv T extra u g)
    (hsettled : ∀ e < T.length, e ∉ g.wqQueue → g.Settled e) :
    ∃ fuel ok g', g.saturateLoop fuel = some (ok, g') ∧ Verdict T extra u ok g g' := by
  -- each round counts a new pair, or shortens the queue
  induction hk : T.length * T.length - (seen T g).card using Nat.strong_induction_on
    generalizing g with
  | _ k ihk =>
    induction hm : g.wqQueue generalizing g with
    | nil =>
      refine ⟨1, true, { g with wqSet := [] }, ?_, h.clear hm, hm, fun e he => ?_, rfl⟩
      · unfold SaturatedGraph.saturateLoop
        rw [hm]
      · have hold := hsettled e he (by rw [hm]; exact List.not_mem_nil)
        exact ⟨hold.eq_fresh, hold.ne_pred⟩
    | cons id rest ihm =>
      have hid := h.queue_lt id (by rw [hm]; exact List.mem_cons_self)
      have hpop := h.wqPop hm
      have hround := hpop.saturateEvent hT hid fun e he hqueue hne => by
        have hold := hsettled e he (by
          rw [hm, List.mem_cons]
          exact fun hmem => hmem.elim hne hqueue)
        exact ⟨hold.eq_fresh, hold.ne_pred⟩
      cases hres : (g.wqPop id rest).saturateEvent id with
      | error g' =>
        rw [hres] at hround
        refine ⟨1, false, g', ?_, id, hround⟩
        unfold SaturatedGraph.saturateLoop
        rw [hm]
        simp only [hres]
      | ok g' =>
        rw [hres] at hround
        obtain ⟨hinv, hset, hprogress, hstatic⟩ := hround
        have hloop : ∃ fuel ok g'', g'.saturateLoop fuel = some (ok, g'') ∧
            Verdict T extra u ok g' g'' := by
          rcases hprogress with rfl | hgrown
          · exact ihm hinv hset hk rfl
          · have hlt := hgrown.card_lt hinv hT hid
            have hbound := card_seen_le T g'
            have heq : seen T (g.wqPop id rest) = seen T g := rfl
            rw [heq] at hlt
            exact ihk _ (by omega) hinv hset rfl
        obtain ⟨fuel, ok, g'', hrun, hverdict⟩ := hloop
        refine ⟨fuel + 1, ok, g'', ?_, hverdict.trans hstatic⟩
        unfold SaturatedGraph.saturateLoop
        rw [hm]
        simp only [hres]
        exact hrun

/-- More fuel gives the same result. -/
theorem saturateLoop_add {fuel : Nat} {r : Bool × SaturatedGraph} (k : Nat)
    (h : g.saturateLoop fuel = some r) : g.saturateLoop (fuel + k) = some r := by
  induction fuel generalizing g with
  | zero => cases h
  | succ fuel ih =>
    rw [Nat.succ_add]
    unfold SaturatedGraph.saturateLoop at h ⊢
    cases hq : g.wqQueue with
    | nil =>
      rw [hq] at h
      exact h
    | cons id rest =>
      rw [hq] at h
      cases hres : (g.wqPop id rest).saturateEvent id with
      | error g' =>
        simp only [hres] at h ⊢
        exact h
      | ok g' =>
        simp only [hres] at h ⊢
        exact ih h

/-! ## Exact graphs -/

/-- Program order, read-from and every recorded edge. -/
def Recorded (T : Trace) (g : SaturatedGraph) (a e : Nat) : Prop :=
  T.ProgramOrder a e ∨ (T.acc e).readFrom = some a ∨ a ∈ g.inOf e ∨ e ∈ g.outOf a

def Ancestor (T : Trace) (g : SaturatedGraph) (a e : Nat) : Prop :=
  TransGen (Recorded T g) a e

theorem Inv.ancestor_iff (h : Inv T extra u g) {a e : Nat} :
    Ancestor T g a e ↔ TransGen g.Edge a e := by
  constructor
  · intro hpath
    have hstep : ∀ a e, Recorded T g a e → TransGen g.Edge a e := by
      rintro a e (hpo | hrf | hin | hout)
      · exact h.po_path hpo
      · exact .single ((h.edge_iff a e).mpr (.inr (.inl hrf)))
      · exact .single ((h.edge_iff a e).mpr (.inr (.inr hin)))
      · rcases (h.mem_outOf a e).mp hout with hin | hpo
        · exact .single ((h.edge_iff a e).mpr (.inr (.inr hin)))
        · exact .single ((h.edge_iff a e).mpr (.inl hpo))
    induction hpath with
    | single hedge => exact hstep _ _ hedge
    | tail _ hedge ih => exact ih.trans (hstep _ _ hedge)
  · refine TransGen.mono (fun a e hedge => ?_) a e
    rcases (h.edge_iff a e).mp hedge with ⟨he, hpo⟩ | hrf | hin
    · have hspec := Trace.poPredecessor_eq_some hpo
      exact .inl ⟨hspec.1, he, hspec.2.1⟩
    · exact .inr (.inl hrf)
    · exact .inr (.inr (.inl hin))

/-- The graph holds the events and the happens-after edges of the trace, has
no cycle, has exact clocks and is closed under saturation. -/
structure Exact (T : Trace) (g : SaturatedGraph) : Prop where
  events : g.events = (List.range T.length).map T.eventOf
  after : ∀ a e, a ∈ (T.acc e).happensAfter → a ∈ g.inOf e
  acyclic : ∀ e, ¬ Ancestor T g e e
  clock : ∀ e < T.length, ∀ p,
    IsGreatest {k | k = 0 ∨ ∃ a, (a = e ∨ Ancestor T g a e) ∧ (T.acc a).pid = p ∧ T.index a = k}
      (get (g.clockOf e) p)
  coherence : ∀ r w s, (T.acc r).isLoad → (T.acc r).readFrom = some w → T.StoreTo s r →
    s ≠ w → Ancestor T g s r → Ancestor T g s w
  fromRead : ∀ r w s, (T.acc r).isLoad → (T.acc r).readFrom = some w → T.StoreTo s r →
    s ≠ r → Ancestor T g w s → Ancestor T g r s
  initial : ∀ r s, (T.acc r).isLoad → (T.acc r).readFrom = none → T.StoreTo s r →
    s ≠ r → Ancestor T g r s

theorem Inv.exact (h : Inv T extra u g) (hT : T.Wf)
    (hsettled : ∀ e < T.length, g.Settled e) (hu : T.length ≤ u) : Exact T g where
  events := h.events
  after a e ha := h.initial a e (.inl ha)
  acyclic e := by
    rw [h.ancestor_iff]
    exact h.acyclic hT hsettled e
  clock e he p := by
    have hgreatest := h.isGreatest_clock hT hsettled he p
    simp only [reflTransGen_iff_eq_or_transGen, ← h.ancestor_iff, eq_comm (a := e)] at hgreatest
    exact hgreatest
  coherence r w s hload hrf hs hne hpath := by
    rw [h.ancestor_iff] at hpath ⊢
    exact h.coherence hT hsettled hload hrf hs hne hpath
  fromRead r w s _ hrf hs hne hpath := by
    rw [h.ancestor_iff] at hpath ⊢
    exact h.fromRead hT hsettled hu hrf hs hne hpath
  initial r s hload hrf hs hne := by
    rw [h.ancestor_iff]
    exact h.initRead hload hrf hs hne

end ViEqui.Saturation
