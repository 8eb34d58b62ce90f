import ViEqui.Lib.Passing
import ViEqui.Adjustment
import ViEqui.CausalOrder
import ViEqui.ThreadOrder

/-!
# The contract of `view_adjust`

`view_adjust(e1, e2)` is to shift the events of the thread of `e1` behind `e2`
coherently, and to leave the sequence as it was where that cannot be done.

* `viewAdjustInPlace`: the function as it works on its own sequence.
* `coherent_viewAdjust_iff`: when a view adjustment keeps the sources of all
  reads.
* `lifetimes_viewAdjust_iff`: when it keeps the order that spawns and joins
  impose.
-/

namespace ViEqui

open Shift Precedence

namespace Sequence

variable {c : Container} {s : Sequence} {e1 e2 : IID}

/-! ## The function in place -/

/-- `view_adjust(e1, e2)`: its answer and what it leaves in the sequence. -/
def viewAdjustInPlace (c : Container) (s : Sequence) (e1 e2 : IID) :
    Bool × Sequence :=
  if c.ordered e1 e2 then (false, s)
  else
    let originalEvents := s
    let n2 := s.idxOf e2
    let n1 := s.idxOf e1
    match shiftBehindInPlace c.rwPair (fun e => e.pid = e1.pid) n1 n2
        (n2 - n1) 0 s with
    | (true, events) => (true, events)
    | (false, _) => (false, originalEvents)

theorem viewAdjustInPlace_eq (c : Container) (s : Sequence) (e1 e2 : IID) :
    viewAdjustInPlace c s e1 e2 =
      match viewAdjust c s e1 e2 with
      | some t => (true, t)
      | none => (false, s) := by
  rw [viewAdjustInPlace, viewAdjust]
  split
  · rfl
  · dsimp only
    rcases shiftBehindInPlace_eq c.rwPair (fun e => decide (e.pid = e1.pid))
        (s.idxOf e1) (s.idxOf e2) (s.idxOf e2 - s.idxOf e1) 0 s with
      ⟨hnone, l, hl⟩ | ⟨l, hsome, hl⟩
    · rw [hnone, hl]
    · rw [hsome, hl]

/-! ## The pairs that are turned round -/

/-- `view_adjust(e1, e2)` shifts `a`, an event of the thread of `e1` from `e1`
on, past `b`, a later event of another thread before `e2` or `e2` itself. -/
def Passes (s : Sequence) (e1 e2 a b : IID) : Prop :=
  Passed (fun e => e.pid = e1.pid) e2 (window (s.idxOf e1) (s.idxOf e2) s) a b

/-- The shift would exchange a read and a write of one object. -/
def Blocked (c : Container) (s : Sequence) (e1 e2 : IID) : Prop :=
  ∃ a b, Passes s e1 e2 a b ∧ c.rwPair a b

theorem clear_window_iff :
    Clear c.rwPair (fun e => e.pid = e1.pid) e2
        (window (s.idxOf e1) (s.idxOf e2) s) ↔ ¬Blocked c s e1 e2 := by
  rw [clear_iff]
  unfold Blocked Passes
  simp only [not_exists, not_and, Bool.not_eq_true]

/-- `view_adjust` succeeds exactly if the pair is not ordered by a spawn or a
join and no read-write pair is in its way. -/
theorem viewAdjust_cases (c : Container) (e1 : IID) (he2 : e2 ∈ s) :
    ∃ P Q, s = P ++ (window (s.idxOf e1) (s.idxOf e2) s ++ e2 :: Q) ∧
      ((c.ordered e1 e2 ∨ Blocked c s e1 e2) ∧ viewAdjust c s e1 e2 = none ∨
        ¬(c.ordered e1 e2 ∨ Blocked c s e1 e2) ∧
          viewAdjust c s e1 e2 = some (P ++ (behind (fun e => e.pid = e1.pid) e2
            (window (s.idxOf e1) (s.idxOf e2) s) ++ Q))) := by
  have hlast : s[s.idxOf e2]? = some e2 := by
    have hlt := List.idxOf_lt_length_of_mem he2
    rw [List.getElem?_eq_getElem hlt, List.getElem_idxOf]
  obtain ⟨P, Q, heq, hshift⟩ := shiftBehind_window c.rwPair
    (fun e => decide (e.pid = e1.pid)) (s.idxOf e1) hlast
  refine ⟨P, Q, heq, ?_⟩
  rw [viewAdjust]
  by_cases hord : c.ordered e1 e2
  · exact .inl ⟨.inl hord, if_pos hord⟩
  · rw [if_neg hord]
    dsimp only
    rw [hshift]
    by_cases hblocked : Blocked c s e1 e2
    · exact .inl ⟨.inr hblocked, if_neg fun h => clear_window_iff.mp h hblocked⟩
    · refine .inr ⟨fun h => h.elim hord hblocked, if_pos (clear_window_iff.mpr hblocked)⟩

/-! ## Coherence -/

/-- `t` is `s` with `e1` behind `e2`, the events of every thread in their
order, and every read with its source. -/
structure Coherent (c : Container) (s t : Sequence) (e1 e2 : IID) : Prop where
  perm : s.Perm t
  behind : Precedes t e2 e1
  threads : ∀ p, t.filter (fun e => e.pid = p) = s.filter (fun e => e.pid = p)
  sources : ∀ r ∈ s, (c.getEvent r).isRead → source c t r = source c s r

/-- The contract of `view_adjust`. -/
def AdjustsCoherently (c : Container) (s : Sequence) (e1 e2 : IID) : Prop :=
  let (ok, t) := viewAdjustInPlace c s e1 e2
  (ok → Coherent c s t e1 e2) ∧ (ok = false → t = s)

/-- A write of the thread of `e1` is shifted past the source of a read of its
object. -/
def Overtaken (c : Container) (s : Sequence) (e1 e2 : IID) : Prop :=
  ∃ r a b, (c.getEvent r).isRead ∧ source c s r = some b ∧
    (c.getEvent a).writesTo (c.getEvent r) ∧ Passes s e1 e2 a b

theorem mem_window (h12 : Precedes s e1 e2) (hs : s.Nodup) :
    e1 ∈ window (s.idxOf e1) (s.idxOf e2) s := by
  have hlt := (precedes_iff_idxOf hs h12.mem_right).mp h12
  obtain ⟨P, M, Q, rfl, he1P, he2M⟩ := exists_between h12.mem_right hlt
  have hn1 : (P ++ (e1 :: M ++ e2 :: Q)).idxOf e1 = P.length := idxOf_append_cons he1P
  have hn2 : (P ++ (e1 :: M ++ e2 :: Q)).idxOf e2 = P.length + (e1 :: M).length := by
    rw [← List.append_assoc, idxOf_append_cons he2M, List.length_append]
  rw [hn1, hn2, window_append rfl]
  exact List.mem_cons_self

/-- The sources of the reads after the shift. -/
theorem sources_behind_iff {P Q : Sequence}
    (heq : s = P ++ (window (s.idxOf e1) (s.idxOf e2) s ++ e2 :: Q))
    (hs : s.Nodup) {t : Sequence}
    (ht : t = P ++ (Shift.behind (fun e => e.pid = e1.pid) e2
      (window (s.idxOf e1) (s.idxOf e2) s) ++ Q))
    (hexch : Exchange c.dependent s t) :
    (∀ r ∈ s, (c.getEvent r).isRead → source c t r = source c s r) ↔
      ¬Overtaken c s e1 e2 := by
  have hread : ∀ r ∈ s, (c.getEvent r).isRead →
      (source c t r = source c s r ↔
        ∀ a b, (c.getEvent a).writesTo (c.getEvent r) → Passes s e1 e2 a b →
          source c s r ≠ some b) := by
    intro r hr hread
    have hrt : r ∈ t := hexch.perm.mem_iff.mp hr
    have hkeep : ∀ w, (c.getEvent w).writesTo (c.getEvent r) →
        (Precedes s w r ↔ Precedes t w r) := by
      intro w hw
      have hdep : c.dependent w r := by
        have hpair : c.rwPair w r := Event.rwPair_of_writesTo hw hread
        simp [Container.dependent, hpair]
      exact hexch.precedes_iff c.dependent_comm hdep
    rw [source, source, if_pos hr, if_pos hrt]
    unfold Passes
    generalize hseg : window (s.idxOf e1) (s.idxOf e2) s = seg at heq ht
    subst heq ht
    exact latestBefore_behind_iff hs hr hexch.perm (fun x _ => by simp) hkeep
  constructor
  · rintro hsame ⟨r, a, b, hr, hb, ha, hab⟩
    have hmem := mem_of_source hb
    exact (hread r hmem hr).mp (hsame r hmem hr) a b ha hab hb
  · intro hnot r hmem hr
    refine (hread r hmem hr).mpr fun a b ha hab hb => hnot ⟨r, a, b, hr, hb, ha, hab⟩

/-- `view_adjust` keeps its contract, exactly if it refuses the pair or no
write overtakes the source of a read. -/
theorem adjustsCoherently_iff (hs : s.Nodup) (h12 : Precedes s e1 e2)
    (hpid : e1.pid ≠ e2.pid) :
    AdjustsCoherently c s e1 e2 ↔
      (c.ordered e1 e2 ∨ Blocked c s e1 e2) ∨ ¬Overtaken c s e1 e2 := by
  unfold AdjustsCoherently
  rw [viewAdjustInPlace_eq]
  obtain ⟨P, Q, heq, hcases⟩ := viewAdjust_cases c e1 h12.mem_right
  rcases hcases with ⟨hrefused, hnone⟩ | ⟨hfree, hsome⟩
  · rw [hnone]
    simp [hrefused]
  · have hexch := exchange_of_viewAdjust hpid h12.mem_right
      ((precedes_iff_idxOf hs h12.mem_right).mp h12) hsome
    have hsources := sources_behind_iff heq hs rfl hexch
    rw [hsome]
    simp only [forall_const, Bool.true_eq_false, false_implies, and_true]
    constructor
    · intro h
      exact .inr (hsources.mp h.sources)
    · intro h
      have hnot := h.resolve_left hfree
      refine ⟨hexch.perm, ?_, fun p => ?_, hsources.mpr hnot⟩
      · refine Precedes.sublist ?_ (List.sublist_append_right P _)
        exact precedes_of_passed Q ⟨by simp, .inr ⟨mem_window h12 hs, rfl⟩⟩
      · refine hexch.filter_eq fun a b ha hb => ?_
        simp only [decide_eq_true_eq] at ha hb
        simp [Container.dependent, ha, hb]

end Sequence

/-! ## Sequences of events -/

/-- A read-write pair, or events of one thread. -/
def Event.dependent (e e' : Event) : Bool :=
  e.rwPair e' || e.iid.pid = e'.iid.pid

theorem Event.dependent_comm (e e' : Event) : e.dependent e' = e'.dependent e := by
  rw [Event.dependent, Event.dependent, Event.rwPair_comm]
  simp only [eq_comm]

namespace EventSequence

variable {s : EventSequence} {e1 e2 : Event}

/-- `view_adjust(e1, e2)`: its answer and what it leaves in the sequence. -/
def viewAdjustInPlace (s : EventSequence) (e1 e2 : Event) : Bool × EventSequence :=
  let originalEvents := s
  let n1 := s.indexOf e1.iid
  let n2 := s.indexOf e2.iid
  match shiftBehindInPlace Event.rwPair (fun e => e.iid.pid = e1.iid.pid) n1 n2
      (n2 - n1) 0 s with
  | (true, events) => (true, events)
  | (false, _) => (false, originalEvents)

theorem viewAdjustInPlace_eq (s : EventSequence) (e1 e2 : Event) :
    viewAdjustInPlace s e1 e2 =
      match viewAdjust s e1.iid e2.iid with
      | some t => (true, t)
      | none => (false, s) := by
  rw [viewAdjustInPlace, viewAdjust]
  rcases shiftBehindInPlace_eq Event.rwPair
      (fun e => decide (e.iid.pid = e1.iid.pid)) (s.indexOf e1.iid)
      (s.indexOf e2.iid) (s.indexOf e2.iid - s.indexOf e1.iid) 0 s with
    ⟨hnone, l, hl⟩ | ⟨l, hsome, hl⟩
  · rw [hnone, hl]
  · rw [hsome, hl]

/-- `view_adjust(e1, e2)` shifts `a` past `b`. -/
def Passes (s : EventSequence) (e1 e2 a b : Event) : Prop :=
  Passed (fun e => e.iid.pid = e1.iid.pid) e2
    (window (s.indexOf e1.iid) (s.indexOf e2.iid) s) a b

/-- The shift would exchange a read and a write of one object. -/
def Blocked (s : EventSequence) (e1 e2 : Event) : Prop :=
  ∃ a b, Passes s e1 e2 a b ∧ a.rwPair b

/-- A write of the thread of `e1` is shifted past the source of a read of its
object. -/
def Overtaken (s : EventSequence) (e1 e2 : Event) : Prop :=
  ∃ r a b, r ∈ s ∧ r.isRead ∧ s.source r = some b ∧ a.writesTo r ∧
    Passes s e1 e2 a b

/-- `t` is `s` with `e1` behind `e2`, the events of every thread in their
order, and every read with its source. -/
structure Coherent (s t : EventSequence) (e1 e2 : Event) : Prop where
  perm : s.Perm t
  behind : Precedes t e2 e1
  threads : ∀ p, t.filter (fun e => e.iid.pid = p) = s.filter (fun e => e.iid.pid = p)
  sources : ∀ r ∈ s, r.isRead → t.source r = s.source r

/-- The contract of `view_adjust`. -/
def AdjustsCoherently (s : EventSequence) (e1 e2 : Event) : Prop :=
  let (ok, t) := viewAdjustInPlace s e1 e2
  (ok → Coherent s t e1 e2) ∧ (ok = false → t = s)

/-- The places of two events that stand in this order. -/
theorem exists_places (hs : s.toIidSequence.Nodup) (h12 : Precedes s e1 e2) :
    ∃ P M Q, s = P ++ (e1 :: M ++ e2 :: Q) ∧ s.indexOf e1.iid = P.length ∧
      s.indexOf e2.iid = P.length + (e1 :: M).length := by
  have hprec : Precedes s.toIidSequence e1.iid e2.iid := h12.map Event.iid
  have hnodup : s.Nodup := List.Nodup.of_map Event.iid hs
  classical
  have hlt := (precedes_iff_idxOf hnodup h12.mem_right).mp h12
  obtain ⟨P, M, Q, rfl, _, _⟩ := exists_between h12.mem_right hlt
  rw [toIidSequence, List.map_append, List.map_append, List.map_cons,
    List.map_cons] at hs
  refine ⟨P, M, Q, rfl, ?_, ?_⟩
  · rw [indexOf_eq, toIidSequence, List.map_append, List.map_append, List.map_cons,
      List.cons_append, idxOf_append_cons, List.length_map]
    exact fun h => (List.nodup_append.mp hs).2.2 _ h e1.iid (by simp) rfl
  · rw [← List.append_assoc, indexOf_eq, toIidSequence, List.map_append,
      List.map_cons, idxOf_append_cons, List.length_map, List.length_append]
    intro h
    rw [← List.map_cons, ← List.append_assoc, ← List.map_append] at hs
    exact (List.nodup_append.mp hs).2.2 _ h e2.iid (by simp) rfl

/-- The sources of the reads after the shift. -/
theorem sources_behind_iff {P Q : EventSequence}
    (heq : s = P ++ (window (s.indexOf e1.iid) (s.indexOf e2.iid) s ++ e2 :: Q))
    (hs : s.toIidSequence.Nodup) {t : EventSequence}
    (ht : t = P ++ (Shift.behind (fun e => e.iid.pid = e1.iid.pid) e2
      (window (s.indexOf e1.iid) (s.indexOf e2.iid) s) ++ Q))
    (hexch : Exchange Event.dependent s t) :
    (∀ r ∈ s, r.isRead → t.source r = s.source r) ↔ ¬Overtaken s e1 e2 := by
  have hnodup : s.Nodup := List.Nodup.of_map Event.iid hs
  have hread : ∀ r ∈ s, r.isRead →
      (t.source r = s.source r ↔
        ∀ a b, a.writesTo r → Passes s e1 e2 a b → s.source r ≠ some b) := by
    intro r hr hread
    have hkeep : ∀ w : Event, w.writesTo r → (Precedes s w r ↔ Precedes t w r) := by
      intro w hw
      have hdep : w.dependent r := by
        simp [Event.dependent, Event.rwPair_of_writesTo hw hread]
      exact hexch.precedes_iff Event.dependent_comm hdep
    have hstop : ∀ x ∈ s, (fun ev : Event => decide (ev.iid = r.iid)) x ↔ x = r := by
      intro x hx
      simp only [decide_eq_true_eq]
      exact ⟨fun h => List.inj_on_of_nodup_map hs hx hr h, fun h => h ▸ rfl⟩
    unfold source Passes
    generalize hseg : window (s.indexOf e1.iid) (s.indexOf e2.iid) s = seg at heq ht
    subst heq ht
    exact latestBefore_behind_iff hnodup hr hexch.perm hstop hkeep
  constructor
  · intro hsame ⟨r, a, b, hmem, hr, hb, ha, hab⟩
    exact (hread r hmem hr).mp (hsame r hmem hr) a b ha hab hb
  · intro hnot r hmem hr
    refine (hread r hmem hr).mpr fun a b ha hab hb =>
      hnot ⟨r, a, b, hmem, hr, hb, ha, hab⟩

/-- `view_adjust` keeps its contract, exactly if it refuses the pair or no
write overtakes the source of a read. -/
theorem adjustsCoherently_iff (hs : s.toIidSequence.Nodup)
    (h12 : Precedes s e1 e2) (hpid : e1.iid.pid ≠ e2.iid.pid) :
    AdjustsCoherently s e1 e2 ↔ Blocked s e1 e2 ∨ ¬Overtaken s e1 e2 := by
  have hnodup : s.Nodup := List.Nodup.of_map Event.iid hs
  obtain ⟨P, M, Q, heq, hn1, hn2⟩ := exists_places hs h12
  have hwindow : window (s.indexOf e1.iid) (s.indexOf e2.iid) s = e1 :: M := by
    rw [hn1, hn2, heq, window_append rfl]
  have hshift : shiftBehind Event.rwPair (fun e => e.iid.pid = e1.iid.pid) _ _ _ 0 _ = _ :=
    shiftBehind_append _ P (e1 :: M) Q e2 rfl
  have hclear : Clear Event.rwPair (fun e => decide (e.iid.pid = e1.iid.pid)) e2
      (e1 :: M) ↔ ¬Blocked s e1 e2 := by
    rw [clear_iff]
    unfold Blocked Passes
    rw [hwindow]
    simp only [not_exists, not_and, Bool.not_eq_true]
  have hadjust : viewAdjust s e1.iid e2.iid =
      if Clear Event.rwPair (fun e => decide (e.iid.pid = e1.iid.pid)) e2 (e1 :: M)
      then some (P ++ (Shift.behind (fun e => e.iid.pid = e1.iid.pid) e2 (e1 :: M) ++ Q))
      else none := by
    rw [viewAdjust, hn1, hn2, heq]
    exact hshift
  unfold AdjustsCoherently
  rw [viewAdjustInPlace_eq, hadjust]
  by_cases hblocked : Blocked s e1 e2
  · rw [if_neg fun h => hclear.mp h hblocked]
    simp [hblocked]
  rw [if_pos (hclear.mpr hblocked)]
  have hexch : Exchange Event.dependent s
      (P ++ (Shift.behind (fun e => e.iid.pid = e1.iid.pid) e2 (e1 :: M) ++ Q)) := by
    have hclear' : Clear Event.dependent (fun e => decide (e.iid.pid = e1.iid.pid)) e2
        (e1 :: M) := by
      refine (hclear.mpr hblocked).mono (by simpa using hpid.symm) ?_
      intro a b ha hb hdep
      simp only [decide_eq_true_eq, decide_eq_false_iff_not] at ha hb
      simp only [Event.dependent, hdep, Bool.false_or, decide_eq_false_iff_not]
      exact fun h => hb (h ▸ ha)
    rw [heq]
    exact (exchange_behind hclear' Q).append_left P
  have hsources := sources_behind_iff (P := P) (Q := Q) (by rw [hwindow]; exact heq) hs
    (by rw [hwindow]) hexch
  simp only [forall_const, Bool.true_eq_false, false_implies, and_true]
  constructor
  · intro h
    exact .inr (hsources.mp h.sources)
  · intro h
    have hnot := h.resolve_left hblocked
    refine ⟨hexch.perm, ?_, fun p => ?_, hsources.mpr hnot⟩
    · refine Precedes.sublist ?_ (List.sublist_append_right P _)
      exact precedes_of_passed Q ⟨by simp, .inr ⟨List.mem_cons_self, rfl⟩⟩
    · refine hexch.filter_eq fun a b ha hb => ?_
      simp only [decide_eq_true_eq] at ha hb
      simp [Event.dependent, ha, hb]

end EventSequence

/-! ## Both functions -/

/-- Both versions of `view_adjust` keep their contract, exactly if they refuse
the pair or no write of the thread of `e1` overtakes the source of a read. -/
theorem viewAdjust_coherent_iff (c : Container) :
    (∀ s e1 e2, s.Nodup → Precedes s e1 e2 → e1.pid ≠ e2.pid →
      (Sequence.AdjustsCoherently c s e1 e2 ↔
        (c.ordered e1 e2 ∨ Sequence.Blocked c s e1 e2) ∨
          ¬Sequence.Overtaken c s e1 e2)) ∧
    ∀ s e1 e2, (EventSequence.toIidSequence s).Nodup → Precedes s e1 e2 →
      e1.iid.pid ≠ e2.iid.pid →
      (EventSequence.AdjustsCoherently s e1 e2 ↔
        EventSequence.Blocked s e1 e2 ∨ ¬EventSequence.Overtaken s e1 e2) :=
  ⟨fun _ _ _ => Sequence.adjustsCoherently_iff,
    fun _ _ _ => EventSequence.adjustsCoherently_iff⟩

/-- The two stores of `racingStores` and the load behind them. -/
def storesThenLoad : Sequence := [⟨0, 0⟩, ⟨1, 0⟩, ⟨2, 0⟩]

theorem viewAdjust_coherent_iff_racing :
    (Sequence.AdjustsCoherently racingStores storesThenLoad ⟨0, 0⟩ ⟨1, 0⟩ ↔
      (racingStores.ordered ⟨0, 0⟩ ⟨1, 0⟩ ∨
          Sequence.Blocked racingStores storesThenLoad ⟨0, 0⟩ ⟨1, 0⟩) ∨
        ¬Sequence.Overtaken racingStores storesThenLoad ⟨0, 0⟩ ⟨1, 0⟩) ∧
    (EventSequence.AdjustsCoherently (storesThenLoad.map racingStores.getEvent)
        (racingStores.getEvent ⟨0, 0⟩) (racingStores.getEvent ⟨1, 0⟩) ↔
      EventSequence.Blocked (storesThenLoad.map racingStores.getEvent)
          (racingStores.getEvent ⟨0, 0⟩) (racingStores.getEvent ⟨1, 0⟩) ∨
        ¬EventSequence.Overtaken (storesThenLoad.map racingStores.getEvent)
          (racingStores.getEvent ⟨0, 0⟩) (racingStores.getEvent ⟨1, 0⟩)) :=
  ⟨(viewAdjust_coherent_iff racingStores).1 _ _ _ (by decide)
      (by unfold Precedes; decide) (by decide),
    (viewAdjust_coherent_iff racingStores).2 _ _ _ (by decide)
      (by unfold Precedes; decide) (by decide)⟩

/-- Both versions exchange the two stores, and the load behind them gets
another source. -/
theorem not_viewAdjust_coherent :
    (¬∀ c s e1 e2, s.Nodup → Precedes s e1 e2 → e1.pid ≠ e2.pid →
      Sequence.AdjustsCoherently c s e1 e2) ∧
    ¬∀ s e1 e2, (EventSequence.toIidSequence s).Nodup → Precedes s e1 e2 →
      e1.iid.pid ≠ e2.iid.pid → EventSequence.AdjustsCoherently s e1 e2 := by
  constructor
  · intro h
    have hcoherent := (h racingStores storesThenLoad ⟨0, 0⟩ ⟨1, 0⟩ (by decide)
      (by unfold Precedes; decide) (by decide)).1 (by decide +kernel)
    have hsource := hcoherent.sources ⟨2, 0⟩ (by decide) (by decide +kernel)
    exact absurd hsource (by decide +kernel)
  · intro h
    have hcoherent := (h (storesThenLoad.map racingStores.getEvent)
      (racingStores.getEvent ⟨0, 0⟩) (racingStores.getEvent ⟨1, 0⟩) (by decide)
      (by unfold Precedes; decide) (by decide)).1 (by decide +kernel)
    have hsource := hcoherent.sources (racingStores.getEvent ⟨2, 0⟩)
      (by decide) (by decide +kernel)
    exact absurd hsource (by decide +kernel)

/-! ## Lifetimes of threads -/

/-- The summaries of `c` are those of the execution `X`. -/
def Container.Summarizes (c : Container) (X : Steps) : Prop :=
  ∃ c₀, ExecutionPrefix X c₀ ∧ c.spawnSummary = c₀.spawnSummary ∧
    c.joinSummary = c₀.joinSummary

/-- Spawns and joins put the event `e` before the event `f` of another
thread. -/
def Steps.LifetimeOrder (X : Steps) (e f : IID) : Prop :=
  X.Before e f ∧ e.pid ≠ f.pid

namespace Sequence

/-- No event stands behind one that it has to precede by spawns and joins. -/
def RespectsLifetimes (X : Steps) (s : Sequence) : Prop :=
  s.Pairwise fun a b => ¬X.LifetimeOrder b a

/-- A successful adjustment respects the lifetimes of the threads. -/
def AdjustRespectsLifetimes (X : Steps) (c : Container) (s : Sequence)
    (e1 e2 : IID) : Prop :=
  let (ok, t) := viewAdjustInPlace c s e1 e2
  ok → RespectsLifetimes X t

/-- `view_adjust` respects the lifetimes of the threads, exactly if it refuses
the pair or shifts no event past one that has to come behind it. -/
theorem adjustRespectsLifetimes_iff {X : Steps} (c : Container) {s : Sequence}
    {e1 e2 : IID} (he2 : e2 ∈ s) (hs : RespectsLifetimes X s) :
    AdjustRespectsLifetimes X c s e1 e2 ↔
      (c.ordered e1 e2 ∨ Blocked c s e1 e2) ∨
        ∀ a b, Passes s e1 e2 a b → ¬X.LifetimeOrder a b := by
  unfold AdjustRespectsLifetimes
  rw [viewAdjustInPlace_eq]
  obtain ⟨P, Q, heq, hcases⟩ := viewAdjust_cases c e1 he2
  rcases hcases with ⟨hrefused, hnone⟩ | ⟨hfree, hsome⟩
  · rw [hnone]
    simp [hrefused]
  · rw [hsome]
    have hpairs : RespectsLifetimes X (P ++ (Shift.behind (fun e => e.pid = e1.pid) e2
          (window (s.idxOf e1) (s.idxOf e2) s) ++ Q)) ↔
        ∀ a b, Passes s e1 e2 a b → ¬X.LifetimeOrder a b := by
      unfold RespectsLifetimes Passes at *
      generalize window (s.idxOf e1) (s.idxOf e2) s = seg at *
      rw [heq] at hs
      exact pairwise_behind_iff hs
    simp only [forall_const, hpairs]
    constructor
    · intro h
      exact .inr h
    · intro h
      exact h.resolve_left hfree

/-- The main thread spawns a thread, stores to an object and spawns a second
thread; then both threads store to objects of their own. -/
def twoSpawns : Steps :=
  [(0, .spawn 1), (0, .other), (0, .spawn 2), (2, .other), (1, .other)]

/-- The thread table and the summaries behind `twoSpawns`. -/
def twoSpawnsTable : Container :=
  let store (n : Nat) (e : IID) : Event :=
    { Event.makeWrite ⟨.global n, 0, 1⟩ [1] with iid := e }
  { threads :=
      [{ events := [{ Event.makeSpawn 1 with iid := ⟨0, 0⟩ }, store 1 ⟨0, 1⟩,
          { Event.makeSpawn 2 with iid := ⟨0, 2⟩ }] },
       { events := [store 2 ⟨1, 0⟩] }, { events := [store 3 ⟨2, 0⟩] }]
    spawnSummary := [(0, [(1, 0), (2, 2)])] }

theorem summarizes_twoSpawns : twoSpawnsTable.Summarizes twoSpawns := by
  have h1 := ExecutionPrefix.start.step 0 (.spawn 1) (by decide)
    (Steps.not_at_of_forall (by decide)) rfl
  have h2 := h1.step 0 .other (by decide) (Steps.not_at_of_forall (by decide)) trivial
  have h3 := h2.step 0 (.spawn 2) (by decide) (Steps.not_at_of_forall (by decide)) rfl
  have h4 := h3.step 2 .other (by decide) (Steps.not_at_of_forall (by decide)) trivial
  have h5 := h4.step 1 .other (by decide) (Steps.not_at_of_forall (by decide)) trivial
  exact ⟨_, h5, rfl, rfl⟩

/-- Only the main thread has anything ordered behind it. -/
theorem main_of_before_twoSpawns {e f : IID} (h : twoSpawns.Before e f) :
    e.pid = f.pid ∨ e.pid = 0 := by
  have hedge : ∀ e f, twoSpawns.ProgramOrder e f ∨ twoSpawns.SpawnEdge e f ∨
      twoSpawns.JoinEdge e f → e.pid = f.pid ∨ e.pid = 0 := by
    intro e f hedge
    rcases hedge with hprogram | hspawn | hjoin
    · exact .inl hprogram.1
    · refine .inr ?_
      by_contra hpid
      have hmem := List.mem_of_getElem? hspawn.1
      simp only [Steps.ofThread, List.mem_map, List.mem_filter] at hmem
      obtain ⟨x, ⟨hx, hthread⟩, hk⟩ := hmem
      have honly : ∀ x ∈ twoSpawns, x.2.spawns → x.1 = 0 := by decide
      have hzero := honly x hx (by rw [hk]; rfl)
      simp only [decide_eq_true_eq] at hthread
      exact hpid (hthread ▸ hzero)
    · have hnone : ∀ x ∈ twoSpawns, x.2 ≠ .join e.pid := by
        intro x hx
        simp only [twoSpawns, List.mem_cons, List.not_mem_nil, or_false] at hx
        rcases hx with rfl | rfl | rfl | rfl | rfl <;> simp
      exact absurd hjoin.2 (Steps.not_at_of_forall hnone f)
  induction h with
  | single h => exact hedge _ _ h
  | tail _ h ih =>
    rcases hedge _ _ h with hpid | hpid
    · rwa [← hpid]
    · exact .inr (ih.elim (fun h => h.trans hpid) id)

theorem respectsLifetimes_twoSpawns :
    RespectsLifetimes twoSpawns [⟨0, 1⟩, ⟨2, 0⟩, ⟨1, 0⟩] := by
  have hnot : ∀ a b : IID, b.pid ≠ 0 → ¬twoSpawns.LifetimeOrder b a := by
    intro a b hb ⟨hbefore, hpid⟩
    rcases main_of_before_twoSpawns hbefore with h | h
    · exact hpid h
    · exact hb h
  have hbehind : ([⟨0, 1⟩, ⟨2, 0⟩, ⟨1, 0⟩] : Sequence).Pairwise
      fun _ b => b.pid ≠ 0 := by decide
  exact hbehind.imp fun hb => hnot _ _ hb

theorem adjustRespectsLifetimes_iff_twoSpawns :
    AdjustRespectsLifetimes twoSpawns twoSpawnsTable [⟨0, 1⟩, ⟨2, 0⟩, ⟨1, 0⟩]
        ⟨0, 1⟩ ⟨1, 0⟩ ↔
      (twoSpawnsTable.ordered ⟨0, 1⟩ ⟨1, 0⟩ ∨
          Blocked twoSpawnsTable [⟨0, 1⟩, ⟨2, 0⟩, ⟨1, 0⟩] ⟨0, 1⟩ ⟨1, 0⟩) ∨
        ∀ a b, Passes [⟨0, 1⟩, ⟨2, 0⟩, ⟨1, 0⟩] ⟨0, 1⟩ ⟨1, 0⟩ a b →
          ¬twoSpawns.LifetimeOrder a b :=
  adjustRespectsLifetimes_iff twoSpawnsTable (by decide) respectsLifetimes_twoSpawns

/-- The store of the main thread is shifted past the store of the thread that
is spawned behind it. -/
theorem not_adjustRespectsLifetimes :
    ¬∀ (X : Steps) (c : Container) (s : Sequence) (e1 e2 : IID), c.Summarizes X →
      e1 ∈ s → e2 ∈ s → RespectsLifetimes X s →
      AdjustRespectsLifetimes X c s e1 e2 := by
  intro h
  have hadjust := h twoSpawns twoSpawnsTable [⟨0, 1⟩, ⟨2, 0⟩, ⟨1, 0⟩] ⟨0, 1⟩
    ⟨1, 0⟩ summarizes_twoSpawns (by decide) (by decide) respectsLifetimes_twoSpawns
  have hplace : viewAdjustInPlace twoSpawnsTable [⟨0, 1⟩, ⟨2, 0⟩, ⟨1, 0⟩] ⟨0, 1⟩
      ⟨1, 0⟩ = (true, [⟨2, 0⟩, ⟨1, 0⟩, ⟨0, 1⟩]) := by decide +kernel
  unfold AdjustRespectsLifetimes at hadjust
  rw [hplace] at hadjust
  have hrespects := hadjust rfl
  have hnot := (List.pairwise_cons.mp hrespects).1 ⟨0, 1⟩ (by simp)
  have hprogram : twoSpawns.ProgramOrder ⟨0, 1⟩ ⟨0, 2⟩ := ⟨rfl, by decide, by decide⟩
  have hspawn : twoSpawns.SpawnEdge ⟨0, 2⟩ ⟨2, 0⟩ := ⟨rfl, by decide⟩
  exact hnot ⟨.tail (.single (.inl hprogram)) (.inr (.inl hspawn)), by decide⟩

end Sequence

end ViEqui
