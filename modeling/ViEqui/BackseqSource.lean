import ViEqui.Merge
import ViEqui.Backseq
import ViEqui.RmwAtomic

/-!
# The two variants of `backseq`

`backseq(e1, e2)` looks events up in the thread table, `backseq(e1, e2,
source)` in a sequence of events.  With the same events in both, the causal
prefixes agree.  The two loops behind them do not read the looked up events
into the variable that they test; `backseq_source_iff` says when that makes no
difference.
-/

namespace ViEqui

open Precedence Shift

namespace Sequence

variable {c : Container} {source : EventSequence} {s : Sequence} {e1 e2 : IID}

/-! ## The events of a merge -/

theorem joinCommon_subset {other : Sequence} :
    ∀ {primary seg : Sequence} {prev : Option IID} {rest merged : Sequence},
      joinCommon c other primary seg prev rest merged ⊆
        merged ++ seg ++ primary ++ rest := by
  intro primary
  induction primary with
  | nil =>
    intro seg prev rest merged x hx
    rw [joinCommon] at hx
    rcases joinPrefix_perm with h | h
    · rw [h] at hx
      cases hx
    · simpa using h.mem_iff.mp hx
  | cons p primary ih =>
    intro seg prev rest merged x hx
    have hrest : (rest.dropWhile (· ≠ p)).tail ⊆ rest :=
      ((List.tail_sublist _).trans (List.dropWhile_sublist _)).subset
    rw [joinCommon] at hx
    dsimp only at hx
    split at hx
    · have := ih hx
      simpa [or_assoc, or_left_comm] using this
    · split at hx
      · have := ih hx
        simp only [List.mem_append, List.mem_cons, List.not_mem_nil, or_false] at this ⊢
        rcases this with ((h | h) | h) | h
        · exact .inl (.inl (.inl h))
        · exact .inl (.inr (.inl h))
        · exact .inl (.inr (.inr h))
        · exact .inr (hrest h)
      · split at hx
        · cases hx
        · next hne =>
          have hperm := joinPrefix_perm.resolve_left hne
          have hseg : rest.takeWhile (· ≠ p) ⊆ rest := (List.takeWhile_sublist _).subset
          have := ih hx
          simp only [List.mem_append, List.mem_cons, List.not_mem_nil, or_false,
            hperm.mem_iff] at this ⊢
          rcases this with ((((h | h) | h) | h) | h) | h
          · exact .inl (.inl (.inl h))
          · exact .inl (.inl (.inr h))
          · exact .inr (hseg h)
          · exact .inl (.inr (.inl h))
          · exact .inl (.inr (.inr h))
          · exact .inr (hrest h)

/-- A merge adds no events. -/
theorem consistentMerge_subset {fuel : Nat} {s t : Sequence} {m : Merge}
    (h : consistentMerge fuel c s t = some m) : m.result ⊆ s ++ t := by
  rw [consistentMerge] at h
  split at h
  · cases h
    exact List.subset_append_right _ _
  · split at h
    · cases h
      exact List.subset_append_left _ _
    · split at h
      · cases h
      · cases h
        exact List.nil_subset _
      · next s' t' hres =>
        obtain ⟨hs, ht, _⟩ := resolveConflicts_perm hres
        dsimp only at h
        split at h
        · cases h
          intro x hx
          have hmem := joinCommon_subset hx
          simpa [hs.mem_iff, ht.mem_iff] using hmem
        · cases h
          exact List.nil_subset _

/-! ## The causal prefix -/

/-- `source` has the events of `s` as they stand in the thread table. -/
def HoldsEvents (c : Container) (source : EventSequence) (s : Sequence) : Prop :=
  ∀ e ∈ s, source.findIid e = some (c.getEvent e)

/-- With the write of an rmw, `s` has its read. -/
def RmwClosed (c : Container) (s : Sequence) : Prop :=
  ∀ w ∈ s, (c.getEvent w).isWrite → (c.getEvent w).isRmw → ⟨w.pid, w.idx - 1⟩ ∈ s

instance (c : Container) (source : EventSequence) (s : Sequence) :
    Decidable (HoldsEvents c source s) :=
  inferInstanceAs (Decidable (∀ e ∈ s, _))

instance (c : Container) (s : Sequence) : Decidable (RmwClosed c s) :=
  inferInstanceAs (Decidable (∀ w ∈ s, _))

theorem HoldsEvents.iid (h : HoldsEvents c source s) {e : IID} (he : e ∈ s) :
    (c.getEvent e).iid = e := by
  have hfind := List.find?_some (h e he)
  simpa using hfind

theorem HoldsEvents.ne_nil (h : HoldsEvents c source s) {e : IID} (he : e ∈ s) :
    source ≠ [] := by
  rintro rfl
  have := h e he
  cases this

theorem eventIn_nil (e : IID) : eventIn c [] e = c.getEvent e := by simp [eventIn]

theorem HoldsEvents.eventIn (h : HoldsEvents c source s) {e : IID} (he : e ∈ s) :
    eventIn c source e = c.getEvent e := by
  rw [Sequence.eventIn, if_neg (h.ne_nil he), h e he]
  rfl

/-- The two variants take the same step at an event of the sequence. -/
theorem causalStep_source (h : HoldsEvents c source s) (hrmw : RmwClosed c s)
    (st : CausalState) {e : IID} (he : e ∈ s) :
    causalStep c source e1 e2 st e = causalStep c [] e1 e2 st e := by
  have hfailed : (c.getEvent e).isWrite →
      failedCmpxchg c source (c.getEvent e) = failedCmpxchg c [] (c.getEvent e) := by
    intro hw
    unfold failedCmpxchg
    cases hr : (c.getEvent e).isRmw with
    | false => rfl
    | true =>
      rw [h.iid he, h.eventIn (hrmw e he hw hr), eventIn_nil]
  have htest : ((c.getEvent e).isWrite && !failedCmpxchg c source (c.getEvent e)) =
      ((c.getEvent e).isWrite && !failedCmpxchg c [] (c.getEvent e)) := by
    cases hw : (c.getEvent e).isWrite with
    | false => rfl
    | true => rw [hfailed hw]
  unfold causalStep
  rw [h.eventIn he, eventIn_nil]
  dsimp only
  rw [htest]

/-- The events that the loop has collected are from `l`. -/
def CausalState.Within (l : Sequence) (st : CausalState) : Prop :=
  st.join.events ⊆ l ∧ st.joinE1.events ⊆ l ∧ st.causal.events ⊆ l

theorem events_addCausalEvent {event : Event} {p : CausalPart} {l : Sequence}
    (hp : p.events ⊆ l) (he : event.iid ∈ l) :
    (addCausalEvent event p).1.events ⊆ l := by
  unfold addCausalEvent
  split
  · exact List.cons_subset.mpr ⟨he, hp⟩
  · exact hp

theorem events_prefixRfSource {event : Event} {p : CausalPart} {l : Sequence}
    (hp : p.events ⊆ l) (he : event.iid ∈ l) :
    (prefixRfSource event p).1.events ⊆ l := by
  unfold prefixRfSource
  split
  · exact List.cons_subset.mpr ⟨he, hp⟩
  · exact hp

theorem CausalState.Within.update {l : Sequence} {st : CausalState}
    (h : st.Within l) (event : Event) :
    (updateThreadCausality event e1 e2 st).Within l := by
  unfold updateThreadCausality
  dsimp only
  generalize (if event.type = .spawn then event.iid.pid else event.object.1) = before
  generalize (if event.type = .spawn then event.object.1 else event.iid.pid) = after
  split
  · split <;> exact h
  · split
    · exact h
    · split
      · exact h
      · split <;> exact h

theorem CausalState.Within.step {l : Sequence} {st : CausalState}
    (h : st.Within l) {e : IID} (he : e ∈ l) (hiid : (c.getEvent e).iid = e) :
    (causalStep c [] e1 e2 st e).Within l := by
  have he' : (c.getEvent e).iid ∈ l := hiid.symm ▸ he
  obtain ⟨hjoin, hjoinE1, hcausal⟩ := h
  unfold causalStep
  rw [eventIn_nil]
  dsimp only
  split
  · exact CausalState.Within.update ⟨hjoin, hjoinE1, hcausal⟩ _
  · split
    · exact ⟨hjoin, hjoinE1, hcausal⟩
    · split
      · exact ⟨events_addCausalEvent hjoin he', events_addCausalEvent hjoinE1 he',
          events_addCausalEvent hcausal he'⟩
      · split
        · exact ⟨events_prefixRfSource hjoin he', events_prefixRfSource hjoinE1 he',
            events_prefixRfSource hcausal he'⟩
        · exact ⟨hjoin, hjoinE1, hcausal⟩

theorem within_foldl {l between : Sequence} {st : CausalState} (h : st.Within l)
    (hbetween : ∀ e ∈ between, e ∈ l ∧ (c.getEvent e).iid = e) :
    (between.foldl (causalStep c [] e1 e2) st).Within l := by
  induction between generalizing st with
  | nil => exact h
  | cons e between ih =>
    obtain ⟨he, hiid⟩ := hbetween e List.mem_cons_self
    exact ih (h.step he hiid) fun i hi => hbetween i (List.mem_cons_of_mem e hi)

/-- The two variants have one causal prefix. -/
theorem causalPrefix_source (h : HoldsEvents c source s) (hrmw : RmwClosed c s)
    (he1 : e1 ∈ s) (fuel : Nat) {between : Sequence} (hbetween : between ⊆ s) :
    causalPrefix fuel c source e1 e2 between = causalPrefix fuel c [] e1 e2 between := by
  have hloop : between.reverse.foldl (causalStep c source e1 e2)
        { causal := { threads := [e2.pid] }, e1Delim := e2 } =
      between.reverse.foldl (causalStep c [] e1 e2)
        { causal := { threads := [e2.pid] }, e1Delim := e2 } := by
    refine List.foldl_ext _ _ _ fun st e he => ?_
    exact causalStep_source h hrmw st (hbetween (List.mem_reverse.mp he))
  unfold causalPrefix
  rw [hloop, h.eventIn he1, eventIn_nil]

theorem events_addSourceE1 {event : Event} {p : CausalPart} {l : Sequence}
    (hp : p.events ⊆ l) (he : e1 ∈ l) : (addSourceE1 event e1 p).1.events ⊆ l := by
  unfold addSourceE1
  split
  · exact List.cons_subset.mpr ⟨he, hp⟩
  · exact hp

/-- The causal prefix consists of events of the sequence. -/
theorem causalPrefix_subset {fuel : Nat} {between : Sequence} {e1Delim : IID}
    {causal : Sequence} (he1 : e1 ∈ s) (hbetween : between ⊆ s)
    (hiid : ∀ e ∈ s, (c.getEvent e).iid = e)
    (h : causalPrefix fuel c [] e1 e2 between = some (e1Delim, causal)) :
    causal ⊆ s := by
  have hwithin : (between.reverse.foldl (causalStep c [] e1 e2)
      { causal := { threads := [e2.pid] }, e1Delim := e2 }).Within s := by
    refine within_foldl ⟨List.nil_subset _, List.nil_subset _, List.nil_subset _⟩ ?_
    intro e he
    have hmem := hbetween (List.mem_reverse.mp he)
    exact ⟨hmem, hiid e hmem⟩
  unfold causalPrefix at h
  dsimp only at h
  generalize between.reverse.foldl (causalStep c [] e1 e2)
    { causal := { threads := [e2.pid] }, e1Delim := e2 } = st at h hwithin
  obtain ⟨hjoin, hjoinE1, hcausal⟩ := hwithin
  -- the parts with `e1` added to them
  have hpart : ∀ p : CausalPart, p.events ⊆ s →
      (if (eventIn c [] e1).isWrite then addSourceE1 (eventIn c [] e1) e1 p
        else (p, false)).1.events ⊆ s := by
    intro p hp
    split
    · exact events_addSourceE1 hp he1
    · exact hp
  simp only [Option.bind_eq_bind, Option.bind_eq_some_iff, Option.pure_def,
    Option.some.injEq, Prod.mk.injEq] at h
  obtain ⟨first, hfirst, second, hsecond, _, rfl⟩ := h
  have hsub1 := consistentMerge_subset hfirst
  have hsub2 := consistentMerge_subset hsecond
  intro x hx
  rcases List.mem_append.mp (hsub2 hx) with hx | hx
  · rcases List.mem_append.mp (hsub1 hx) with hx | hx
    · exact hpart _ hjoin hx
    · exact hpart _ hjoinE1 hx
  · exact hpart _ hcausal hx

/-! ## The place of the write -/

/-- `x` is a write of the object of `e1` with another value. -/
def Racing (c : Container) (e1 x : IID) : Prop :=
  (c.getEvent e1).sameObject (c.getEvent x) ∧ (c.getEvent x).isWrite ∧
    (c.getEvent x).value ≠ (c.getEvent e1).value

/-- The write `e1` has to come behind `x`, the last event of `A ++ [x]`: a
racing write, or a read of the object behind one. -/
def Blocks (c : Container) (e1 : IID) (A : Sequence) (x : IID) : Prop :=
  Racing c e1 x ∨ (c.getEvent e1).sameObject (c.getEvent x) ∧
    (c.getEvent x).isRead ∧ ∃ y ∈ A, Racing c e1 y

/-- The last occurrence of `delim` does not stand behind all the events that
`e1` has to come behind. -/
def TooLate (c : Container) (e1 delim : IID) (P : Sequence) : Prop :=
  ∃ A x B, P = A ++ x :: B ∧ Blocks c e1 A x ∧ delim ∈ A ++ [x] ∧ delim ∉ B

theorem tooLate_concat {delim x : IID} {P : Sequence} :
    TooLate c e1 delim (P ++ [x]) ↔
      Blocks c e1 P x ∧ delim ∈ P ++ [x] ∨ x ≠ delim ∧ TooLate c e1 delim P := by
  constructor
  · intro ⟨A, y, B, heq, hblocks, hmem, hnot⟩
    rcases List.eq_nil_or_concat B with rfl | ⟨B', z, rfl⟩
    · obtain ⟨rfl, hxy⟩ := List.append_inj' heq rfl
      cases hxy
      exact .inl ⟨hblocks, hmem⟩
    · rw [List.concat_eq_append] at heq hnot
      have heq' : P ++ [x] = (A ++ y :: B') ++ [z] := by simpa using heq
      obtain ⟨rfl, hxz⟩ := List.append_inj' heq' rfl
      cases hxz
      simp only [List.mem_append, List.mem_singleton, not_or] at hnot
      exact .inr ⟨fun h => hnot.2 h.symm, A, y, B', rfl, hblocks, hmem, hnot.1⟩
  · intro h
    rcases h with ⟨hblocks, hmem⟩ | ⟨hne, A, y, B, rfl, hblocks, hmem, hnot⟩
    · exact ⟨P, x, [], rfl, hblocks, hmem, by simp⟩
    · refine ⟨A, y, B ++ [x], by simp, hblocks, hmem, ?_⟩
      simp only [List.mem_append, List.mem_singleton, not_or]
      exact ⟨hnot, fun h => hne h.symm⟩

/-- The loop of `findPlace` from any state. -/
def placeLoop (c : Container) (source : EventSequence) (e1Delim : IID)
    (st : PlaceState) (P : Sequence) : PlaceState :=
  ((List.range P.length).zip P).foldl (placeStep c source e1Delim) st

theorem placeLoop_concat (source : EventSequence) (e1Delim : IID) (st : PlaceState)
    (P : Sequence) (x : IID) :
    placeLoop c source e1Delim st (P ++ [x]) =
      placeStep c source e1Delim (placeLoop c source e1Delim st P) (P.length, x) := by
  unfold placeLoop
  rw [List.length_append, List.length_singleton, List.range_succ,
    List.zip_append (by simp), List.foldl_append]
  rfl

open Classical in
/-- One step of the loop, with the events from the thread table. -/
theorem placeStep_nil {delim x : IID} {st : PlaceState} {P : Sequence}
    (hevent : st.event = c.getEvent e1)
    (hfound : st.foundRacingWrite ↔ ∃ y ∈ P, Racing c e1 y) (i : Nat) :
    placeStep c [] delim st (i, x) =
      { event := c.getEvent e1
        loc := if Blocks c e1 P x then i + 1 else st.loc
        delimLoc := if x = delim then i else st.delimLoc
        foundRacingWrite := st.foundRacingWrite || decide (Racing c e1 x) } := by
  have hracing : ((c.getEvent e1).sameObject (c.getEvent x) && (c.getEvent x).isWrite &&
      decide ((c.getEvent x).value ≠ (c.getEvent e1).value)) = decide (Racing c e1 x) := by
    unfold Racing
    rw [Bool.eq_iff_iff]
    simp [and_assoc]
  have hread : ((c.getEvent e1).sameObject (c.getEvent x) && (c.getEvent x).isRead &&
      st.foundRacingWrite) = decide ((c.getEvent e1).sameObject (c.getEvent x) ∧
        (c.getEvent x).isRead ∧ ∃ y ∈ P, Racing c e1 y) := by
    rw [Bool.eq_iff_iff, decide_eq_true_iff, ← hfound]
    simp [and_assoc]
  unfold placeStep
  simp only [if_true, hevent, hracing, hread]
  unfold Blocks
  by_cases hr : Racing c e1 x
  · simp [hr]
  · by_cases hb : (c.getEvent e1).sameObject (c.getEvent x) ∧ (c.getEvent x).isRead ∧
        ∃ y ∈ P, Racing c e1 y
    · simp [hr, hb]
    · simp only [hr, hb, decide_false, Bool.false_eq_true, if_false, or_self,
        Bool.or_false]

/-- Where the loop puts the write, with the events from the thread table. -/
structure PlacedBehind (c : Container) (e1 delim : IID) (P : Sequence) (D : Nat)
    (st : PlaceState) : Prop where
  event : st.event = c.getEvent e1
  found : st.foundRacingWrite ↔ ∃ y ∈ P, Racing c e1 y
  le : st.loc ≤ P.length
  delimLoc : if delim ∈ P then st.delimLoc < P.length else st.delimLoc = D
  late : st.delimLoc < st.loc ↔ TooLate c e1 delim P
  zero : st.loc = 0 ↔ ∀ y ∈ P, ¬Racing c e1 y
  last : ∀ k, st.loc = k + 1 → ∃ A x B, P = A ++ x :: B ∧ A.length = k ∧
    Blocks c e1 A x

theorem placedBehind_placeLoop (delim : IID) (D : Nat) (P : Sequence)
    (hD : P.length < D) :
    PlacedBehind c e1 delim P D
      (placeLoop c [] delim { event := c.getEvent e1, delimLoc := D } P) := by
  induction P using List.reverseRecOn with
  | nil =>
    refine ⟨rfl, by simp [placeLoop], Nat.le_refl _, by simp [placeLoop], ?_, ?_, ?_⟩
    · simp [placeLoop, TooLate]
    · simp [placeLoop]
    · simp [placeLoop]
  | append_singleton P x ih =>
    have hlen : (P ++ [x]).length = P.length + 1 := by simp
    rw [hlen] at hD
    have hst := ih (by omega)
    rw [placeLoop_concat]
    generalize placeLoop c [] delim { event := c.getEvent e1, delimLoc := D } P = st
      at hst ⊢
    obtain ⟨hevent, hfound, hle, hdelim, hlate, hzero, hlast⟩ := hst
    classical
    rw [placeStep_nil hevent hfound]
    have hconcat : (∃ y ∈ P ++ [x], Racing c e1 y) ↔
        (∃ y ∈ P, Racing c e1 y) ∨ Racing c e1 x := by
      simp [or_and_right, exists_or]
    constructor
    case event => rfl
    case found =>
      rw [hconcat, ← hfound]
      simp
    case le =>
      rw [hlen]
      dsimp only
      split <;> omega
    case delimLoc =>
      rw [hlen]
      dsimp only
      by_cases hx : x = delim
      · simp [hx]
      · simp only [List.mem_append, List.mem_singleton, Ne.symm hx, or_false, hx,
          if_false]
        split at hdelim
        · next hmem =>
          rw [if_pos hmem]
          omega
        · next hmem =>
          rw [if_neg hmem]
          exact hdelim
    case late =>
      rw [tooLate_concat]
      dsimp only
      by_cases hb : Blocks c e1 P x
      · rw [if_pos hb]
        by_cases hx : x = delim
        · subst hx
          simp [hb]
        · simp only [hx, if_false, hb, true_and, List.mem_append, List.mem_singleton,
            Ne.symm hx, or_false, ne_eq, not_false_eq_true]
          split at hdelim
          · next hmem =>
            refine iff_of_true (by omega) (.inl hmem)
          · next hmem =>
            refine iff_of_false (by omega) ?_
            intro h
            rcases h with h | ⟨A, y, B, rfl, _, h, _⟩
            · exact hmem h
            · refine hmem ?_
              simp only [List.mem_append, List.mem_cons, List.not_mem_nil, or_false] at h ⊢
              exact h.imp_right Or.inl
      · rw [if_neg hb]
        by_cases hx : x = delim
        · simp only [hx, if_true]
          refine iff_of_false (by omega) ?_
          intro h
          rcases h with h | h
          · exact hb (hx ▸ h.1)
          · exact h.1 rfl
        · simp only [hx, if_false, hlate, hb, false_and, false_or, ne_eq,
            not_false_eq_true, true_and]
    case zero =>
      dsimp only
      have hnot : (∀ y ∈ P ++ [x], ¬Racing c e1 y) ↔
          ¬((∃ y ∈ P, Racing c e1 y) ∨ Racing c e1 x) := by
        rw [← hconcat]
        simp only [not_exists, not_and]
      rw [hnot]
      by_cases hb : Blocks c e1 P x
      · rw [if_pos hb]
        refine iff_of_false (by omega) fun h => h ?_
        rcases hb with hr | ⟨_, _, hr⟩
        · exact .inr hr
        · exact .inl hr
      · rw [if_neg hb, hzero]
        have hr : ¬Racing c e1 x := fun h => hb (.inl h)
        simp [hr]
    case last =>
      dsimp only
      intro k hk
      split at hk
      · next hb =>
        have hk : P.length = k := by omega
        exact ⟨P, x, [], rfl, hk, hb⟩
      · obtain ⟨A, y, B, rfl, hA, hy⟩ := hlast k hk
        exact ⟨A, y, B ++ [x], by simp, hA, hy⟩

/-- With a source, the events do not get into the variable that the loop
tests: it leaves the write at the front, and the last event in place of
`e1`. -/
theorem placeLoop_source (hne : source ≠ []) (delim : IID) (st : PlaceState)
    (P : Sequence) (hP : HoldsEvents c source P) :
    (placeLoop c source delim st P).loc = st.loc ∧
      (placeLoop c source delim st P).event =
        (P.getLast?.map c.getEvent).getD st.event := by
  induction P using List.reverseRecOn with
  | nil => exact ⟨rfl, rfl⟩
  | append_singleton P x ih =>
    obtain ⟨hloc, _⟩ := ih fun e he => hP e (List.mem_append_left [x] he)
    have hx : (source.findIid x).getD default = c.getEvent x := by
      rw [hP x (by simp)]
      rfl
    have hdefault : (default : Event).isWrite = false ∧ (default : Event).isRead = false :=
      by decide
    rw [placeLoop_concat]
    unfold placeStep
    simp [hne, hx, hdefault.1, hdefault.2, hloc]

/-! ## The read of an rmw -/

/-- Every write of the object of `e1` behind which `e1` would stand in `L`
leaves the value that the read of `e1` has. -/
def ReadKeepsValue (c : Container) (e1 : IID) (L : Sequence) : Prop :=
  ∀ w, latestBefore (· = e1)
      (fun x => (c.getEvent e1).sameObject (c.getEvent x) && (c.getEvent x).isWrite) L =
    some w → (c.getEvent w).value = (c.getEvent ⟨e1.pid, e1.idx - 1⟩).value

theorem take_idxOf (e : IID) (L : Sequence) :
    L.take (L.idxOf e) = L.takeWhile (fun a => !decide (a = e)) := by
  induction L with
  | nil => rfl
  | cons a L ih =>
    by_cases h : a = e
    · simp [h]
    · rw [List.idxOf_cons_ne _ h, List.take_succ_cons, ih, List.takeWhile_cons]
      simp [h]

theorem foldl_racingStep (event : Event) (L : Sequence) :
    L.foldl (racingStep c []) (event, none) =
      (event, (latest (fun x => event.sameObject (c.getEvent x) &&
        (c.getEvent x).isWrite) L).map fun x => (c.getEvent x).value) := by
  induction L using List.reverseRecOn with
  | nil => rfl
  | append_singleton L x ih =>
    rw [List.foldl_append, ih, List.foldl_cons, List.foldl_nil, latest_concat]
    unfold racingStep
    simp only [if_true]
    split <;> rfl

theorem pushRmwRead_nil (e1 : IID) (L : Sequence) :
    (ReadKeepsValue c e1 L ∧ pushRmwRead c [] (c.getEvent e1) e1 L =
        pushAt L (L.idxOf e1) ⟨e1.pid, e1.idx - 1⟩) ∨
      (¬ReadKeepsValue c e1 L ∧ pushRmwRead c [] (c.getEvent e1) e1 L = []) := by
  unfold pushRmwRead ReadKeepsValue latestBefore
  dsimp only
  rw [take_idxOf, foldl_racingStep]
  cases latest (fun x => (c.getEvent e1).sameObject (c.getEvent x) &&
      (c.getEvent x).isWrite) (L.takeWhile fun a => !decide (a = e1)) with
  | none => simp
  | some w =>
    by_cases hv : (c.getEvent w).value = (c.getEvent ⟨e1.pid, e1.idx - 1⟩).value
    · simp [hv]
    · simp [hv]

/-- With a source, the loop before the rmw read finds no write. -/
theorem pushRmwRead_source (hne : source ≠ []) (event : Event) (e1 : IID)
    (L : Sequence) :
    pushRmwRead c source event e1 L = pushAt L (L.idxOf e1) ⟨e1.pid, e1.idx - 1⟩ := by
  have hnone : ∀ (l : Sequence) (st : Event × Option Value), st.2 = none →
      (l.foldl (racingStep c source) st).2 = none := by
    intro l
    induction l with
    | nil => exact fun st h => h
    | cons x l ih =>
      intro st h
      refine ih _ ?_
      have hdefault : (default : Event).isWrite = false := by decide
      unfold racingStep
      simp [hne, hdefault, h]
  have hval := hnone (L.take (L.idxOf e1)) (event, none) rfl
  unfold pushRmwRead
  dsimp only
  rw [hval]
  rfl

/-! ## Inserting at the front -/

theorem pushAt_cons (a : IID) (L : Sequence) (k : Nat) (e : IID) :
    pushAt (a :: L) (k + 1) e = a :: pushAt L k e := rfl

@[simp] theorem length_pushAt {L : Sequence} {k : Nat} (h : k ≤ L.length) (e : IID) :
    (pushAt L k e).length = L.length + 1 := by
  unfold pushAt
  rw [List.length_append, List.length_cons, List.length_take, List.length_drop]
  omega

/-- An insertion that might as well be made at the front passes only what it
inserts. -/
theorem eq_of_pushAt_eq_cons {A B : Sequence} {e x : IID}
    (h : pushAt (A ++ x :: B) (A.length + 1) e = e :: (A ++ x :: B)) : x = e := by
  induction A with
  | nil => exact (List.cons.inj h).1
  | cons a A ih =>
    rw [List.cons_append, List.length_cons, pushAt_cons] at h
    obtain ⟨ha, h⟩ := List.cons.inj h
    rw [ha] at h
    exact ih h

/-- The same with another element put before the inserted one. -/
theorem eq_of_pushAt_pushAt {A B : Sequence} {e r x : IID}
    (h : pushAt (pushAt (A ++ x :: B) (A.length + 1) e)
        ((pushAt (A ++ x :: B) (A.length + 1) e).idxOf e) r =
      r :: e :: (A ++ x :: B)) : x = e := by
  obtain ⟨a, L, hL⟩ : ∃ a L, A ++ x :: B = a :: L := by
    cases A with
    | nil => exact ⟨x, B, rfl⟩
    | cons a A => exact ⟨a, A ++ x :: B, rfl⟩
  have hpush : ∃ T, pushAt (A ++ x :: B) (A.length + 1) e = a :: T ∧
      ∃ b T', T = b :: T' := by
    rw [hL, pushAt_cons]
    refine ⟨_, rfl, ?_⟩
    unfold pushAt
    cases L.take A.length with
    | nil => exact ⟨e, _, rfl⟩
    | cons b T' => exact ⟨b, _, rfl⟩
  obtain ⟨T, hT, b, T', rfl⟩ := hpush
  by_cases ha : a = e
  · subst ha
    rw [hT, List.idxOf_cons_self] at h
    have hrest := (List.cons.inj h).2
    exact eq_of_pushAt_eq_cons (hT.trans hrest)
  · rw [hT, List.idxOf_cons_ne _ ha, pushAt_cons, hL] at h
    obtain ⟨har, h⟩ := List.cons.inj h
    -- the element behind the first one is `e` itself, so `r` comes right before it
    by_cases hb : b = e
    · subst hb
      rw [List.idxOf_cons_self] at h
      have hr := (List.cons.inj h).1
      exact absurd (har.trans hr) ha
    · rw [List.idxOf_cons_ne _ hb, pushAt_cons] at h
      exact absurd (List.cons.inj h).1 hb

/-! ## Agreement -/

/-- What `backseq` makes of the causal prefix `P` for a write `e1`. -/
def finish (c : Container) (source : EventSequence) (e1 e2 e1Delim : IID)
    (P : Sequence) : Sequence :=
  let st := findPlace c source (c.getEvent e1) e1Delim P
  if st.delimLoc < st.loc then []
  else
    let placed := placeWrite e1 e2 e1Delim P st.loc
    if st.event.isRmw then pushRmwRead c source st.event e1 placed else placed

/-- The variants agree on the pair `e1`, `e2` with the causal prefix `P`: if
`e1` is a write, it need not come behind anything in `P`, or it is in `P` and
stands behind all it has to; it belongs to an rmw exactly if the last event of
`P` does; and the read of an rmw `e1` in `P` keeps its value. -/
def VariantsAgree (c : Container) (e1 e2 e1Delim : IID) (P : Sequence) : Prop :=
  (c.getEvent e1).isWrite →
    ((∀ x ∈ P, ¬Racing c e1 x) ∨ e1Delim = e1 ∧ ¬TooLate c e1 e1 P) ∧
    (c.getEvent e1).isRmw = ((P.getLast?.map c.getEvent).getD (c.getEvent e1)).isRmw ∧
    (e1Delim = e1 → (c.getEvent e1).isRmw → ReadKeepsValue c e1 (P ++ [e2]))

/-- The event that the write has to come behind is not the write. -/
theorem Blocks.ne {A : Sequence} {x : IID} (hwrite : (c.getEvent e1).isWrite)
    (h : Blocks c e1 A x) : x ≠ e1 := by
  rintro rfl
  rcases h with ⟨_, _, hvalue⟩ | ⟨_, hread, _⟩
  · exact hvalue rfl
  · rw [Event.isRead_eq_false_of_isWrite hwrite] at hread
    cases hread

theorem finish_source (hne : source ≠ []) (e1Delim : IID) {P : Sequence}
    (hP : HoldsEvents c source P) :
    finish c source e1 e2 e1Delim P =
      let placed := placeWrite e1 e2 e1Delim P 0
      if ((P.getLast?.map c.getEvent).getD (c.getEvent e1)).isRmw then
        pushAt placed (placed.idxOf e1) ⟨e1.pid, e1.idx - 1⟩
      else placed := by
  obtain ⟨hloc, hevent⟩ := placeLoop_source hne e1Delim
    { event := c.getEvent e1, delimLoc := P.length + 1 } P hP
  have hplace : findPlace c source (c.getEvent e1) e1Delim P =
      placeLoop c source e1Delim { event := c.getEvent e1, delimLoc := P.length + 1 } P :=
    rfl
  unfold finish
  rw [hplace]
  dsimp only
  rw [hloc, hevent, if_neg (Nat.not_lt_zero _), pushRmwRead_source hne]

/-- With `e1` in the causal prefix nothing is inserted for it. -/
theorem finish_eq_iff_of_delim (hne : source ≠ []) {P : Sequence}
    (hP : HoldsEvents c source P) :
    finish c source e1 e2 e1 P = finish c [] e1 e2 e1 P ↔
      ¬TooLate c e1 e1 P ∧
      (c.getEvent e1).isRmw = ((P.getLast?.map c.getEvent).getD (c.getEvent e1)).isRmw ∧
      ((c.getEvent e1).isRmw → ReadKeepsValue c e1 (P ++ [e2])) := by
  have hst : PlacedBehind c e1 e1 P (P.length + 1) _ :=
    placedBehind_placeLoop e1 (P.length + 1) P (Nat.lt_succ_self _)
  have hplace : findPlace c [] (c.getEvent e1) e1 P =
      placeLoop c [] e1 { event := c.getEvent e1, delimLoc := P.length + 1 } P := rfl
  have hplaced : ∀ k, placeWrite e1 e2 e1 P k = P ++ [e2] := fun k => if_pos rfl
  have hlen : ∀ e, (pushAt (P ++ [e2]) ((P ++ [e2]).idxOf e1) e).length ≠
      (P ++ [e2]).length := by
    intro e h
    rw [length_pushAt List.idxOf_le_length] at h
    omega
  rw [finish_source hne e1 hP, finish, hplace]
  dsimp only
  rw [hst.event, hplaced, hplaced]
  generalize placeLoop c [] e1 { event := c.getEvent e1, delimLoc := P.length + 1 } P = st
    at hst
  generalize ((P.getLast?.map c.getEvent).getD (c.getEvent e1)).isRmw = lastRmw
  by_cases hlate : TooLate c e1 e1 P
  · rw [if_pos (hst.late.mpr hlate)]
    refine iff_of_false ?_ fun h => h.1 hlate
    split
    · intro h
      have := congrArg List.length h
      rw [length_pushAt List.idxOf_le_length] at this
      cases this
    · simp
  · rw [if_neg fun h => hlate (hst.late.mp h)]
    simp only [hlate, not_false_eq_true, true_and]
    cases hrmw : (c.getEvent e1).isRmw with
    | false =>
      cases lastRmw with
      | false => simp
      | true =>
        simp only [if_true, Bool.false_eq_true, if_false]
        refine iff_of_false (fun h => hlen _ (congrArg List.length h)) (by simp)
    | true =>
      simp only [if_true, forall_const]
      rcases pushRmwRead_nil (c := c) e1 (P ++ [e2]) with ⟨hkeeps, hpush⟩ | ⟨hnot, hpush⟩
      · rw [hpush]
        cases lastRmw with
        | false =>
          refine iff_of_false (fun h => hlen _ (congrArg List.length h).symm) (by simp)
        | true => simp [hkeeps]
      · rw [hpush]
        refine iff_of_false (fun h => ?_) fun h => hnot h.2
        have := congrArg List.length h
        split at this
        · rw [length_pushAt List.idxOf_le_length] at this
          cases this
        · simp at this

/-- With `e1` not in the causal prefix, the variants agree if the write may
come first. -/
theorem finish_eq_iff_of_not_delim (hne : source ≠ []) {e1Delim : IID}
    (hwrite : (c.getEvent e1).isWrite) (hdelim : e1Delim ≠ e1) {P : Sequence}
    (hP : HoldsEvents c source P) :
    finish c source e1 e2 e1Delim P = finish c [] e1 e2 e1Delim P ↔
      (∀ x ∈ P, ¬Racing c e1 x) ∧
      (c.getEvent e1).isRmw =
        ((P.getLast?.map c.getEvent).getD (c.getEvent e1)).isRmw := by
  have hst : PlacedBehind c e1 e1Delim P (P.length + 1) _ :=
    placedBehind_placeLoop e1Delim (P.length + 1) P (Nat.lt_succ_self _)
  have hplace : findPlace c [] (c.getEvent e1) e1Delim P =
      placeLoop c [] e1Delim { event := c.getEvent e1, delimLoc := P.length + 1 } P := rfl
  have hplaced : ∀ k, placeWrite e1 e2 e1Delim P k = pushAt (P ++ [e2]) k e1 :=
    fun k => if_neg hdelim
  rw [finish_source hne e1Delim hP, finish, hplace]
  dsimp only
  rw [hst.event, hplaced, hplaced]
  generalize placeLoop c [] e1Delim { event := c.getEvent e1, delimLoc := P.length + 1 } P =
    st at hst
  generalize ((P.getLast?.map c.getEvent).getD (c.getEvent e1)).isRmw = lastRmw
  have hfront : pushAt (P ++ [e2]) 0 e1 = e1 :: (P ++ [e2]) := rfl
  have hidx : (e1 :: (P ++ [e2])).idxOf e1 = 0 := List.idxOf_cons_self
  have hpushfront : ∀ r, pushAt (e1 :: (P ++ [e2])) 0 r = r :: e1 :: (P ++ [e2]) :=
    fun _ => rfl
  rw [hfront, hidx, hpushfront]
  cases hloc : st.loc with
  | zero =>
    have hracing := hst.zero.mp hloc
    have hkeeps : ReadKeepsValue c e1 (e1 :: (P ++ [e2])) := by
      intro w hw
      simp [latestBefore, latest] at hw
    have hpush : pushRmwRead c [] (c.getEvent e1) e1 (e1 :: (P ++ [e2])) =
        ⟨e1.pid, e1.idx - 1⟩ :: e1 :: (P ++ [e2]) := by
      rcases pushRmwRead_nil (c := c) e1 (e1 :: (P ++ [e2])) with ⟨_, h⟩ | ⟨h, _⟩
      · rw [h, hidx]
        rfl
      · exact absurd hkeeps h
    rw [if_neg (Nat.not_lt_zero _), hfront, hpush]
    cases lastRmw <;> cases (c.getEvent e1).isRmw <;> simp <;> exact hracing
  | succ k =>
    have hracing : ¬∀ x ∈ P, ¬Racing c e1 x := by
      rw [← hst.zero, hloc]
      exact Nat.succ_ne_zero k
    refine iff_of_false ?_ fun h => hracing h.1
    obtain ⟨A, x, B, rfl, rfl, hblocks⟩ := hst.last k hloc
    have hx := hblocks.ne hwrite
    have hlist : A ++ x :: B ++ [e2] = A ++ x :: (B ++ [e2]) := by simp
    have hle : A.length + 1 ≤ (A ++ x :: (B ++ [e2])).length := by
      simp only [List.length_append, List.length_cons]
      omega
    have hsource : ∀ R : Sequence, R = [] →
        (if lastRmw then ⟨e1.pid, e1.idx - 1⟩ :: e1 :: (A ++ x :: (B ++ [e2]))
          else e1 :: (A ++ x :: (B ++ [e2]))) ≠ R := by
      rintro R rfl
      cases lastRmw <;> simp
    rw [hlist]
    by_cases hlate : st.delimLoc < A.length + 1
    · rw [if_pos hlate]
      exact hsource [] rfl
    rw [if_neg hlate]
    have hlen := length_pushAt hle e1
    cases hrmw : (c.getEvent e1).isRmw with
    | false =>
      cases lastRmw with
      | false =>
        intro h
        exact hx (eq_of_pushAt_eq_cons h.symm)
      | true =>
        intro h
        have := congrArg List.length h
        simp [hlen] at this
    | true =>
      simp only [if_true]
      rcases pushRmwRead_nil (c := c) e1
          (pushAt (A ++ x :: (B ++ [e2])) (A.length + 1) e1) with
        ⟨_, hpush⟩ | ⟨_, hpush⟩
      · rw [hpush]
        cases lastRmw with
        | false =>
          intro h
          have := congrArg List.length h
          rw [length_pushAt List.idxOf_le_length, hlen] at this
          simp at this
        | true =>
          intro h
          exact hx (eq_of_pushAt_pushAt h.symm)
      · exact hsource _ hpush

/-- The events of `s` strictly between `e1` and `e2`. -/
def between (s : Sequence) (e1 e2 : IID) : Sequence :=
  (s.drop (s.idxOf e1 + 1)).take (s.idxOf e2 - (s.idxOf e1 + 1))

theorem between_subset (s : Sequence) (e1 e2 : IID) : between s e1 e2 ⊆ s :=
  ((List.take_sublist _ _).trans (List.drop_sublist _ _)).subset

theorem backseq_eq (fuel : Nat) (s : Sequence)
    (hevent : eventIn c source e1 = c.getEvent e1) :
    backseq fuel c s e1 e2 source =
      (causalPrefix fuel c source e1 e2 (between s e1 e2)).map fun p =>
        if (c.getEvent e1).isWrite then finish c source e1 e2 p.1 p.2
        else if p.1 ≠ e2 then [] else p.2 ++ [e2] ++ [e1] := by
  have hbetween : (s.drop (s.idxOf e1 + 1)).take (s.idxOf e2 - (s.idxOf e1 + 1)) =
      between s e1 e2 := rfl
  unfold backseq
  dsimp only
  rw [hevent, hbetween]
  cases causalPrefix fuel c source e1 e2 (between s e1 e2) with
  | none => rfl
  | some p =>
    obtain ⟨d, P⟩ := p
    simp only [Option.bind_eq_bind, Option.bind_some, Option.map_some, Option.pure_def]
    split
    · rw [finish]
      dsimp only
      split
      · rfl
      · split <;> rfl
    · split <;> rfl

/-- The two variants of `backseq` agree, exactly if they agree on what they
make of the causal prefix. -/
theorem backseq_source_iff (fuel : Nat) (hsource : HoldsEvents c source s)
    (hrmw : RmwClosed c s) (he1 : e1 ∈ s) :
    backseq fuel c s e1 e2 source = backseq fuel c s e1 e2 [] ↔
      ∀ e1Delim P, causalPrefix fuel c [] e1 e2 (between s e1 e2) = some (e1Delim, P) →
        VariantsAgree c e1 e2 e1Delim P := by
  have hne := hsource.ne_nil he1
  rw [backseq_eq fuel s (hsource.eventIn he1), backseq_eq fuel s (eventIn_nil e1),
    causalPrefix_source hsource hrmw he1 fuel (between_subset s e1 e2)]
  cases hprefix : causalPrefix fuel c [] e1 e2 (between s e1 e2) with
  | none => simp
  | some p =>
    obtain ⟨d, P⟩ := p
    have hP : HoldsEvents c source P := fun e he =>
      hsource e (causalPrefix_subset he1 (between_subset s e1 e2)
        (fun e he => hsource.iid he) hprefix he)
    have hall : (∀ e1Delim P', some (d, P) = some (e1Delim, P') →
        VariantsAgree c e1 e2 e1Delim P') ↔ VariantsAgree c e1 e2 d P := by
      constructor
      · intro h
        exact h d P rfl
      · intro h e1Delim P' heq
        cases heq
        exact h
    rw [hall]
    simp only [Option.map_some, Option.some.injEq]
    unfold VariantsAgree
    by_cases hwrite : (c.getEvent e1).isWrite
    · simp only [hwrite, if_true, forall_const]
      by_cases hd : d = e1
      · subst hd
        rw [finish_eq_iff_of_delim hne hP]
        have hfront : (∀ x ∈ P, ¬Racing c d x) → ¬TooLate c d d P := by
          intro hnone ⟨A, x, B, heq, hblocks, _⟩
          rcases hblocks with hr | ⟨_, _, y, hy, hr⟩
          · exact hnone x (by simp [heq]) hr
          · exact hnone y (by simp [heq, hy]) hr
        simp only [true_and, forall_const]
        constructor
        · intro ⟨hlate, h⟩
          exact ⟨.inr hlate, h⟩
        · intro ⟨hlate, h⟩
          exact ⟨hlate.elim hfront id, h⟩
      · rw [finish_eq_iff_of_not_delim hne hwrite hd hP]
        simp [hd]
    · simp [hwrite]

/-- A store of 1, and a store of 2 with a load behind it by another
thread. -/
def storesAndLoad : Container :=
  let x : SymAddrSize := ⟨.global 1, 0, 1⟩
  { threads :=
      [{ events := [{ Event.makeWrite x [1] with iid := ⟨0, 0⟩ }] },
       { events := [{ Event.makeWrite x [2] with iid := ⟨1, 0⟩ },
          { Event.makeRead x with iid := ⟨1, 1⟩ }] }] }

theorem backseq_source_iff_storesAndLoad :
    backseq 10 storesAndLoad [⟨0, 0⟩, ⟨1, 0⟩, ⟨1, 1⟩] ⟨0, 0⟩ ⟨1, 1⟩
        ([⟨0, 0⟩, ⟨1, 0⟩, ⟨1, 1⟩].map storesAndLoad.getEvent) =
      backseq 10 storesAndLoad [⟨0, 0⟩, ⟨1, 0⟩, ⟨1, 1⟩] ⟨0, 0⟩ ⟨1, 1⟩ [] ↔
    ∀ e1Delim P, causalPrefix 10 storesAndLoad [] ⟨0, 0⟩ ⟨1, 1⟩
        (between [⟨0, 0⟩, ⟨1, 0⟩, ⟨1, 1⟩] ⟨0, 0⟩ ⟨1, 1⟩) = some (e1Delim, P) →
      VariantsAgree storesAndLoad ⟨0, 0⟩ ⟨1, 1⟩ e1Delim P :=
  backseq_source_iff 10 (by decide +kernel) (by decide +kernel) (by decide)

/-- The variant with a source puts the store of 1 before the store of 2, and
the load does not read it. -/
theorem not_backseq_source :
    ¬∀ (fuel : Nat) (c : Container) (source : EventSequence) (s : Sequence)
      (e1 e2 : IID), s.Nodup → HoldsEvents c source s → RmwClosed c s →
      e1 ∈ s → e2 ∈ s → s.idxOf e1 < s.idxOf e2 →
      backseq fuel c s e1 e2 source = backseq fuel c s e1 e2 [] := by
  intro h
  have hsame := h 10 storesAndLoad ([⟨0, 0⟩, ⟨1, 0⟩, ⟨1, 1⟩].map storesAndLoad.getEvent)
    [⟨0, 0⟩, ⟨1, 0⟩, ⟨1, 1⟩] ⟨0, 0⟩ ⟨1, 1⟩ (by decide) (by decide +kernel)
    (by decide +kernel) (by decide) (by decide) (by decide)
  exact absurd hsame (by decide +kernel)

end Sequence

end ViEqui
