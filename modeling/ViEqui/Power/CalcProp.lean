import ViEqui.Power.Ppo
import ViEqui.Lib.Propagation
import Mathlib.Data.Int.Order.Basic
import Mathlib.Order.MinMax

/-!
# New edges of prop

`calc_prop` derives the edges of prop that a new event brings.  `calc_prop_inits`
searches backwards for the events from which such edges can start, and for each
of them a coloured search forwards finds where they end.  The search forwards is
exact (`mem_calcPropFrom`).  The search backwards does not follow the edges of
`C × afterC`, so that `calc_prop` is exact where no event gains an edge of prop
by such an edge alone (`calcProp_exact_iff`).
-/

namespace ViEqui.Power

open Relation Worklist

/-! ## The model -/

/-- Colours of the search forwards. -/
inductive PropMark where
  | RFE
  | COM
  | L_HB
  | R_HB
  | R_HB_SNC
deriving DecidableEq, Repr

namespace TB

/-- The events of a thread. -/
def ofThread (tb : TB) (proc : Nat) : List IID :=
  (List.range (tb.thread proc).fchCount).map fun i => ⟨proc, i + 1⟩

/-- The position of an event in its thread, from 0. -/
def pos (e : IID) : Int := e.idx - 1

/-- Loads before this position are before the event in fences. -/
def fncLoadBefore (E : PAEvent) : Int := max E.lwsyncIdxBefore E.syncIdxBefore

/-- Stores before this position are before the event in fences. -/
def fncStoreBefore (E : PAEvent) : Int :=
  if E.hasStore then max E.syncIdxBefore (max E.lwsyncIdxBefore E.eieioIdxBefore)
  else E.syncIdxBefore

/-- The events before `e` in fences. -/
def fencesTo (tb : TB) (evt e : IID) : List IID :=
  let E := tb.getEvt e
  let fnc := max (fncLoadBefore E) (fncStoreBefore E)
  (tb.ofThread e.pid).filter fun fe => pos fe < fnc ∧ tb.Present evt fe ∧
    ((tb.getEvt fe).hasLoad ∧ pos fe < fncLoadBefore E ∨
      (tb.getEvt fe).hasStore ∧ pos fe < fncStoreBefore E)

/-- The position of a fence; without one it is the end of the thread. -/
def fenceIdx (after fchCount : Int) : Int := if after = -1 then fchCount else after

/-- Loads from this position on are behind the event in fences. -/
def fncLoadAfter (E : PAEvent) (fchCount : Int) : Int :=
  let lwsync := fenceIdx E.lwsyncIdxAfter fchCount
  let sync := fenceIdx E.syncIdxAfter fchCount
  if E.hasLoad then min sync lwsync else sync

/-- Stores from this position on are behind the event in fences. -/
def fncStoreAfter (E : PAEvent) (fchCount : Int) : Int :=
  let eieio := fenceIdx E.eieioIdxAfter fchCount
  let lwsync := fenceIdx E.lwsyncIdxAfter fchCount
  let sync := fenceIdx E.syncIdxAfter fchCount
  if E.hasStore then min (min sync lwsync) eieio else min sync lwsync

/-- The events behind `e` in fences; `true` for those behind a sync. -/
def fencesFrom (tb : TB) (evt e : IID) : List (IID × Bool) :=
  let E := tb.getEvt e
  let fchCount : Int := (tb.thread e.pid).fchCount
  let fnc := min (fncLoadAfter E fchCount) (fncStoreAfter E fchCount)
  ((tb.ofThread e.pid).filter fun fe => fnc ≤ pos fe ∧ tb.Present evt fe ∧
    ((tb.getEvt fe).hasLoad ∧ fncLoadAfter E fchCount ≤ pos fe ∨
      (tb.getEvt fe).hasStore ∧ fncStoreAfter E fchCount ≤ pos fe)).map
    fun fe => (fe, fenceIdx E.syncIdxAfter fchCount ≤ pos fe)

/-- The events before `e` in com. -/
def comBwd (tb : TB) (evt : IID) (rel : Relations) (e : IID) : List IID :=
  (tb.relOf evt rel e).com.bwd.vec

/-- Steps for `follow_com_star`. -/
def comFuel (tb : TB) (evt : IID) (rel : Relations) : Nat :=
  1 + ((tb.present evt).map fun e => (tb.comBwd evt rel e).length).sum

/-- `follow_com_star`: enters `e` and what is before it in com*. -/
def followComStar (tb : TB) (evt : IID) (rel : Relations) (newProp : List IID) (e : IID) :
    List IID :=
  sweep (tb.comBwd evt rel) (tb.comFuel evt rel) newProp [e]

/-- The edges of the search backwards over hb.  The events of `afterC` are
coloured `AFTER_I`, and none is coloured `AFTER_C`. -/
def initsEdges (tb : TB) (evt : IID) (rel : Relations) (EHB : ExtraHB) (e : IID) :
    List (Edge IID Unit (List IID)) :=
  edgesTo (fun _ => [()]) (tb.relOf evt rel e).hb.bwd ++
    if e ∈ EHB.afterI ∨ e ∈ EHB.afterC then edgesTo (fun _ => [()]) EHB.I else []

/-- Follows com*;fences backwards from `e`. -/
def enterInits (tb : TB) (evt : IID) (rel : Relations) (newProp : List IID) (e : IID) :
    List IID :=
  (tb.fencesTo evt e).foldl (tb.followComStar evt rel) newProp

/-- Where the search backwards starts. -/
def initsFirst (evt : IID) (EHB : ExtraHB) : List IID :=
  EHB.afterC.vec.reverse ++ EHB.afterI.vec.reverse ++ [evt]

/-- `calc_prop_inits`. -/
def calcPropInits (tb : TB) (evt : IID) (rel : Relations) (EHB : ExtraHB) : List IID :=
  (run (tb.initsEdges evt rel EHB) (fun newProp e _ => tb.enterInits evt rel newProp e)
    (2 * tb.fetched.length + 1)
    (tb.followComStar evt rel [] evt,
      ⟨(initsFirst evt EHB).map fun e => (e, ()), initsFirst evt EHB⟩)).1

/-- What a search forwards enters: into `rel.prop` and into `ER.prop`. -/
abbrev PropOut := Rel × List (IID × IID)

/-- Enters the edge from `init` to `e2`, if its colours say so. -/
def recordProp (tb : TB) (evt init : IID) (out : PropOut) (e2 : IID)
    (_old colour : List PropMark) : PropOut :=
  if (tb.getEvt e2).hasStore ∧ (tb.getEvt init).hasStore ∧ .L_HB ∈ colour ∨
      .R_HB_SNC ∈ colour then
    let pfwd := if init = evt then out.1.fwd else (tb.getEvt init).rel.prop.fwd
    if e2 ∈ pfwd then out
    else
      let prop := if e2 = evt then { out.1 with bwd := out.1.bwd.insert init } else out.1
      if init = evt then ({ prop with fwd := prop.fwd.insert e2 }, out.2)
      else if e2 ≠ evt then (prop, if (init, e2) ∈ out.2 then out.2 else out.2 ++ [(init, e2)])
      else (prop, out.2)
  else out

/-- The colours that an edge of fences passes on.  An event that is followed has
some colour, and behind a sync any colour gives `R_HB_SNC`. -/
def fencesRule (sync : Bool) (m : PropMark) : List PropMark :=
  (match m with
    | .RFE => [.L_HB]
    | .COM => [.R_HB]
    | m => [m]) ++ if sync then [.R_HB_SNC] else []

/-- The colours that an edge of hb passes on. -/
def hbRule (m : PropMark) : List PropMark :=
  if m = .L_HB ∨ m = .R_HB ∨ m = .R_HB_SNC then [m] else []

/-- The events behind `e` in hb, with the edges of `rel` and `EHB`. -/
def hbFwd (tb : TB) (evt : IID) (rel : Relations) (EHB : ExtraHB) (e : IID) : List IID :=
  (tb.relOf evt rel e).hb.fwd.vec ++
    (if e ∈ EHB.I then EHB.afterI.vec ++ EHB.afterC.vec
      else if e ∈ EHB.C then EHB.afterC.vec else []) ++
    if e ∈ rel.hb.bwd then [evt] else []

/-- The edges of the search forwards from `init`. -/
def propEdges (tb : TB) (evt : IID) (rel : Relations) (EHB : ExtraHB) (init e : IID) :
    List (Edge IID PropMark PropOut) :=
  (tb.fencesFrom evt e).map (fun fe => { target := fe.1, rule := fencesRule fe.2 }) ++
    ((tb.hbFwd evt rel EHB e).filter fun e2 => tb.Present evt e2).map fun e2 =>
      { target := e2, rule := hbRule, record := tb.recordProp evt init }

/-- The events behind `init` in rfe. -/
def rfeFwd (tb : TB) (evt : IID) (rel : Relations) (init : IID) : List IID :=
  ((tb.relOf evt rel init).rf.fwd.vec.filter fun e => e.pid ≠ init.pid) ++
    if init ∈ rel.rf.bwd ∧ init.pid ≠ evt.pid then [evt] else []

/-- The edges of com*.  What is coloured is put on the stack of the search
forwards. -/
def comEdges (tb : TB) (evt : IID) (rel : Relations) (e : IID) :
    List (Edge IID PropMark (List IID)) :=
  ((tb.relOf evt rel e).com.fwd.vec ++ if e ∈ rel.com.bwd then [evt] else []).map fun ce =>
    { target := ce, rule := fun m => if m = .COM then [.COM] else [],
      record := fun stack ce old _ => if .COM ∈ old then stack else ce :: stack }

/-- The colours before the search over com*. -/
def propFirst (tb : TB) (evt : IID) (rel : Relations) (init : IID) : List (IID × PropMark) :=
  (tb.rfeFwd evt rel init).foldl (fun marks e => addMarks e marks [.RFE])
    [(init, .RFE), (init, .COM)]

/-- The search over com*. -/
def comSearch (tb : TB) (evt : IID) (rel : Relations) (init : IID) :
    List IID × State IID PropMark :=
  run (tb.comEdges evt rel) (fun stack e _ => e :: stack) (5 * tb.fetched.length + 1)
    ([], ⟨tb.propFirst evt rel init, [init]⟩)

/-- The search forwards from `init`. -/
def calcPropFrom (tb : TB) (evt : IID) (rel : Relations) (EHB : ExtraHB) (out : PropOut)
    (init : IID) : PropOut :=
  let (stack, s) := tb.comSearch evt rel init
  (run (tb.propEdges evt rel EHB init) (fun out _ _ => out)
    (stack.length + 5 * tb.fetched.length) (out, ⟨s.marks, stack⟩)).1

/-- `calc_prop`. -/
def calcProp (tb : TB) (evt : IID) (rel : Relations) (ER : ExtraRel) : Relations × ExtraRel :=
  let out := (tb.calcPropInits evt rel ER.EHB).foldl (tb.calcPropFrom evt rel ER.EHB)
    (rel.prop, ER.prop)
  ({ rel with prop := out.1 }, { ER with prop := out.2 })

/-! ## The relations of the larger structure -/

/-- An edge of hb, with the extra edges. -/
inductive HbEdge (tb : TB) (evt : IID) (rel : Relations) (EHB : ExtraHB) : IID → IID → Prop where
  | related {a b : IID} (h : tb.Related evt rel Relations.hb a b) : HbEdge tb evt rel EHB a b
  | I {a b : IID} (ha : a ∈ EHB.I) (hb : b ∈ EHB.afterI) : HbEdge tb evt rel EHB a b
  | C {a b : IID} (ha : a ∈ EHB.C) (hb : b ∈ EHB.afterC) : HbEdge tb evt rel EHB a b

/-- A fence lies between two events, by the index of the next fence behind the
first one. -/
def Between (tb : TB) (after : PAEvent → Int) (a b : IID) : Prop :=
  a.pid = b.pid ∧ after (tb.getEvt a) ≠ -1 ∧ after (tb.getEvt a) ≤ pos b

/-- The fences that order `a` before `b`. -/
def Fence (tb : TB) (a b : IID) : Prop :=
  tb.Between PAEvent.syncIdxAfter a b ∨
    tb.Between PAEvent.lwsyncIdxAfter a b ∧
      ((tb.getEvt a).hasLoad = true ∨ (tb.getEvt b).hasStore = true) ∨
    tb.Between PAEvent.eieioIdxAfter a b ∧
      (tb.getEvt a).hasStore = true ∧ (tb.getEvt b).hasStore = true

/-- The index of the last fence before an event tells the same as the index of
the next fence behind an event. -/
def FenceAgree (tb : TB) (evt : IID) (before after : PAEvent → Int) : Prop :=
  ∀ a ∈ tb.present evt, ∀ b ∈ tb.present evt, a.pid = b.pid →
    (pos a < before (tb.getEvt b) ↔ after (tb.getEvt a) ≠ -1 ∧ after (tb.getEvt a) ≤ pos b)

/-- An event structure with a new event and extra edges of hb.  The events of a
fence and of rfe are ordered in hb, and those of rf in com. -/
structure PropReady (tb : TB) (evt : IID) (rel : Relations) (EHB : ExtraHB) : Prop where
  new : tb.New evt
  com : tb.Mutual Relations.com
  rf : tb.Mutual Relations.rf
  hb : tb.Mutual Relations.hb
  prop : tb.Mutual Relations.prop
  relCom : tb.Among rel.com
  relRf : tb.Among rel.rf
  relHb : tb.Among rel.hb
  extraI : ∀ e ∈ EHB.I.vec, tb.Committed e
  extraC : ∀ e ∈ EHB.C.vec, tb.Committed e
  extraAfterI : ∀ e ∈ EHB.afterI.vec, tb.Committed e
  extraAfterC : ∀ e ∈ EHB.afterC.vec, tb.Committed e
  subset : ∀ e ∈ EHB.I.vec, e ∈ EHB.C
  disjoint : ∀ e ∈ EHB.afterI.vec, e ∉ EHB.afterC
  accesses : ∀ e ∈ tb.present evt, (tb.getEvt e).hasLoad = true ∨ (tb.getEvt e).hasStore = true
  sync : tb.FenceAgree evt PAEvent.syncIdxBefore PAEvent.syncIdxAfter
  lwsync : tb.FenceAgree evt PAEvent.lwsyncIdxBefore PAEvent.lwsyncIdxAfter
  eieio : tb.FenceAgree evt PAEvent.eieioIdxBefore PAEvent.eieioIdxAfter
  rf_com : ∀ a ∈ tb.present evt, ∀ b ∈ tb.present evt, tb.Related evt rel Relations.rf a b →
    tb.Related evt rel Relations.com a b
  rfe_hb : ∀ a ∈ tb.present evt, ∀ b ∈ tb.present evt, tb.Related evt rel Relations.rf a b →
    a.pid ≠ b.pid → tb.Related evt rel Relations.hb a b
  fences_hb : ∀ a ∈ tb.present evt, ∀ b ∈ tb.present evt, tb.Fence a b →
    tb.Related evt rel Relations.hb a b

instance (tb : TB) (after : PAEvent → Int) (a b : IID) : Decidable (tb.Between after a b) :=
  inferInstanceAs (Decidable (_ ∧ _))

instance (tb : TB) (a b : IID) : Decidable (tb.Fence a b) :=
  inferInstanceAs (Decidable (_ ∨ _))

instance (tb : TB) (evt : IID) (before after : PAEvent → Int) :
    Decidable (tb.FenceAgree evt before after) :=
  inferInstanceAs (Decidable (∀ a ∈ tb.present evt, ∀ b ∈ tb.present evt, a.pid = b.pid →
    (pos a < before (tb.getEvt b) ↔ after (tb.getEvt a) ≠ -1 ∧ after (tb.getEvt a) ≤ pos b)))

/-- The recorded relation `r`. -/
def RecordedIn (tb : TB) (r : Relations → Rel) (a b : IID) : Prop :=
  tb.Committed a ∧ tb.Committed b ∧ b ∈ (r (tb.getEvt a).rel).fwd

instance (tb : TB) (r : Relations → Rel) (a b : IID) : Decidable (tb.RecordedIn r a b) :=
  inferInstanceAs (Decidable (_ ∧ _))

variable {tb : TB} {evt : IID} {rel : Relations} {EHB : ExtraHB}

theorem PropReady.com_of_rf (h : tb.PropReady evt rel EHB) {a b : IID}
    (hab : tb.Related evt rel Relations.rf a b) : tb.Related evt rel Relations.com a b := by
  obtain ⟨ha, hb⟩ := hab.present h.relRf
  exact h.rf_com a (h.new.present.mpr ha) b (h.new.present.mpr hb) hab

theorem PropReady.hb_of_rfe (h : tb.PropReady evt rel EHB) {a b : IID}
    (hab : tb.Related evt rel Relations.rf a b) (hpid : a.pid ≠ b.pid) :
    tb.Related evt rel Relations.hb a b := by
  obtain ⟨ha, hb⟩ := hab.present h.relRf
  exact h.rfe_hb a (h.new.present.mpr ha) b (h.new.present.mpr hb) hab hpid

theorem New.related_recorded (h : tb.New evt) {r : Relations → Rel} {a b : IID}
    (ha : tb.Committed a) (hb : tb.Committed b) (hrel : tb.Related evt rel r a b) :
    tb.RecordedIn r a b := by
  cases hrel with
  | recorded _ _ hmem => exact ⟨ha, hb, hmem⟩
  | before _ => exact absurd rfl (h.ne hb)
  | behind _ => exact absurd rfl (h.ne ha)

theorem RecordedIn.related {r : Relations → Rel} {a b : IID} (h : tb.RecordedIn r a b) :
    tb.Related evt rel r a b :=
  .recorded h.1 h.2.1 h.2.2

/-- The structure with the new event. -/
def grown (h : tb.PropReady evt rel EHB) : Propagation.Structure IID where
  store e := tb.Present evt e ∧ (tb.getEvt e).hasStore = true
  com := tb.Related evt rel Relations.com
  rfe a b := tb.Related evt rel Relations.rf a b ∧ a.pid ≠ b.pid
  fences a b := tb.Present evt a ∧ tb.Present evt b ∧ tb.Fence a b
  ffence a b := tb.Present evt a ∧ tb.Present evt b ∧ tb.Between PAEvent.syncIdxAfter a b
  hb := tb.HbEdge evt rel EHB
  rfe_com hab := h.com_of_rf hab.1
  ffence_fences hab := ⟨hab.1, hab.2.1, Or.inl hab.2.2⟩
  fences_hb hab := .related (h.fences_hb _ (h.new.present.mpr hab.1) _
    (h.new.present.mpr hab.2.1) hab.2.2)
  rfe_hb hab := .related (h.hb_of_rfe hab.1 hab.2)

/-- The structure of the committed events. -/
def recorded (h : tb.PropReady evt rel EHB) : Propagation.Structure IID where
  store e := tb.Committed e ∧ (tb.getEvt e).hasStore = true
  com := tb.RecordedIn Relations.com
  rfe a b := tb.RecordedIn Relations.rf a b ∧ a.pid ≠ b.pid
  fences a b := tb.Committed a ∧ tb.Committed b ∧ tb.Fence a b
  ffence a b := tb.Committed a ∧ tb.Committed b ∧ tb.Between PAEvent.syncIdxAfter a b
  hb := tb.RecordedIn Relations.hb
  rfe_com hab :=
    h.new.related_recorded hab.1.1 hab.1.2.1 (h.com_of_rf hab.1.related)
  ffence_fences hab := ⟨hab.1, hab.2.1, Or.inl hab.2.2⟩
  fences_hb hab := h.new.related_recorded hab.1 hab.2.1 (h.fences_hb _
    (h.new.present.mpr (Or.inr hab.1)) _ (h.new.present.mpr (Or.inr hab.2.1)) hab.2.2)
  rfe_hb hab := h.new.related_recorded hab.1.1 hab.1.2.1 (h.hb_of_rfe hab.1.related hab.2)

/-- The edges of hb that the search backwards follows. -/
def Follow (tb : TB) (evt : IID) (rel : Relations) (EHB : ExtraHB) (a b : IID) : Prop :=
  tb.Related evt rel Relations.hb a b ∨ a ∈ EHB.I ∧ (b ∈ EHB.afterI ∨ b ∈ EHB.afterC)

/-- Where the search backwards starts. -/
def Start (evt : IID) (EHB : ExtraHB) (e : IID) : Prop :=
  e = evt ∨ e ∈ EHB.afterI ∨ e ∈ EHB.afterC

theorem Related.cases_new {r : Relations → Rel} {a b : IID} (h : tb.Related evt rel r a b) :
    tb.RecordedIn r a b ∨ a = evt ∨ b = evt := by
  cases h with
  | recorded ha hb h => exact Or.inl ⟨ha, hb, h⟩
  | before _ => exact Or.inr (Or.inr rfl)
  | behind _ => exact Or.inr (Or.inl rfl)

/-- The larger structure has one event more, and edges of hb to where the search
backwards starts. -/
theorem PropReady.extends (h : tb.PropReady evt rel EHB) :
    Propagation.Extends (recorded h) (grown h) evt (Start evt EHB) (tb.Follow evt rel EHB) where
  store_le hs := ⟨Or.inr hs.1, hs.2⟩
  com_le hab := hab.related
  rfe_le hab := ⟨hab.1.related, hab.2⟩
  fences_le hab := ⟨Or.inr hab.1, Or.inr hab.2.1, hab.2.2⟩
  ffence_le hab := ⟨Or.inr hab.1, Or.inr hab.2.1, hab.2.2⟩
  hb_le hab := .related hab.related
  hb_follow hab := Or.inl hab.related
  follow_hb hab := by
    rcases hab with hab | ⟨ha, hb | hb⟩
    · exact .related hab
    · exact .I ha hb
    · exact .C (h.subset _ ha) hb
  store hs := hs.1.symm.imp_left fun hc => ⟨hc, hs.2⟩
  com hab := hab.cases_new
  fences hab := by
    rcases hab with ⟨rfl | ha, rfl | hb, hf⟩
    · exact Or.inr (Or.inl rfl)
    · exact Or.inr (Or.inl rfl)
    · exact Or.inr (Or.inr rfl)
    · exact Or.inl ⟨ha, hb, hf⟩
  ffence hab := by
    rcases hab with ⟨rfl | ha, rfl | hb, hf⟩
    · exact Or.inr (Or.inl rfl)
    · exact Or.inr (Or.inl rfl)
    · exact Or.inr (Or.inr rfl)
    · exact Or.inl ⟨ha, hb, hf⟩
  rfe hab := hab.1.cases_new.imp_left fun hr => ⟨hr, hab.2⟩
  hb hab := by
    cases hab with
    | related hr => exact hr.cases_new.imp_right (Or.imp_right fun heq => Or.inl heq)
    | I _ hb => exact Or.inr (Or.inr (Or.inr (Or.inl hb)))
    | C _ hb => exact Or.inr (Or.inr (Or.inr (Or.inr hb)))
  target := Or.inl rfl

/-! ## Fences -/

theorem mem_ofThread {p : Nat} {e : IID} :
    e ∈ tb.ofThread p ↔ e.pid = p ∧ 1 ≤ e.idx ∧ e.idx ≤ (tb.thread p).fchCount := by
  unfold ofThread
  rw [List.mem_map]
  constructor
  · rintro ⟨i, hi, rfl⟩
    exact ⟨rfl, by show 1 ≤ i + 1; omega, List.mem_range.mp hi⟩
  · rintro ⟨rfl, h1, hi⟩
    refine ⟨e.idx - 1, List.mem_range.mpr (by omega), ?_⟩
    rw [Nat.sub_add_cancel h1]

theorem New.mem_fetched (h : tb.New evt) {e : IID} (he : tb.Present evt e) : e ∈ tb.fetched := by
  rcases he with rfl | he
  · exact h.fetched
  · exact he.1

theorem New.mem_ofThread (h : tb.New evt) {e : IID} (he : tb.Present evt e) :
    e ∈ tb.ofThread e.pid :=
  TB.mem_ofThread.mpr ⟨rfl, (TB.mem_fetched.mp (h.mem_fetched he)).2⟩

theorem fenceIdx_le {after n p : Int} (hp : p < n) :
    fenceIdx after n ≤ p ↔ after ≠ -1 ∧ after ≤ p := by
  unfold fenceIdx
  split_ifs <;> omega

theorem fncLoadAfter_le {E : PAEvent} {n p : Int} (hp : p < n) :
    fncLoadAfter E n ≤ p ↔ (E.syncIdxAfter ≠ -1 ∧ E.syncIdxAfter ≤ p) ∨
      E.hasLoad = true ∧ E.lwsyncIdxAfter ≠ -1 ∧ E.lwsyncIdxAfter ≤ p := by
  rw [← fenceIdx_le hp, ← fenceIdx_le hp]
  unfold fncLoadAfter
  split_ifs with hload
  · simp only [hload, true_and, min_le_iff]
  · simp [hload]

theorem fncStoreAfter_le {E : PAEvent} {n p : Int} (hp : p < n) :
    fncStoreAfter E n ≤ p ↔ (E.syncIdxAfter ≠ -1 ∧ E.syncIdxAfter ≤ p) ∨
      (E.lwsyncIdxAfter ≠ -1 ∧ E.lwsyncIdxAfter ≤ p) ∨
      E.hasStore = true ∧ E.eieioIdxAfter ≠ -1 ∧ E.eieioIdxAfter ≤ p := by
  rw [← fenceIdx_le hp, ← fenceIdx_le hp, ← fenceIdx_le hp]
  unfold fncStoreAfter
  split_ifs with hstore
  · simp only [hstore, true_and, min_le_iff, or_assoc]
  · simp only [hstore, Bool.false_eq_true, false_and, or_false, min_le_iff]

theorem Fence.pid {a b : IID} (h : tb.Fence a b) : a.pid = b.pid := by
  rcases h with hf | ⟨hf, -⟩ | ⟨hf, -⟩ <;> exact hf.1

theorem PropReady.mem_fencesFrom (h : tb.PropReady evt rel EHB) {a b : IID} {s : Bool} :
    (b, s) ∈ tb.fencesFrom evt a ↔ tb.Present evt b ∧ tb.Fence a b ∧
      (s = true ↔ tb.Between PAEvent.syncIdxAfter a b) := by
  have hcond (hb : tb.Present evt b) (hpid : a.pid = b.pid)
      (hlt : pos b < ((tb.thread a.pid).fchCount : Int)) :
      ((tb.getEvt b).hasLoad = true ∧
          fncLoadAfter (tb.getEvt a) (tb.thread a.pid).fchCount ≤ pos b ∨
        (tb.getEvt b).hasStore = true ∧
          fncStoreAfter (tb.getEvt a) (tb.thread a.pid).fchCount ≤ pos b) ↔ tb.Fence a b := by
    have hacc := h.accesses b (h.new.present.mpr hb)
    rw [fncLoadAfter_le hlt, fncStoreAfter_le hlt]
    simp only [Fence, Between, hpid, true_and]
    constructor
    · rintro (⟨hb, hsync | ⟨ha, hlwsync⟩⟩ | ⟨hb, hsync | hlwsync | ⟨ha, heieio⟩⟩)
      · exact Or.inl hsync
      · exact Or.inr (Or.inl ⟨hlwsync, Or.inl ha⟩)
      · exact Or.inl hsync
      · exact Or.inr (Or.inl ⟨hlwsync, Or.inr hb⟩)
      · exact Or.inr (Or.inr ⟨heieio, ha, hb⟩)
    · rintro (hsync | ⟨hlwsync, ha | hb⟩ | ⟨heieio, ha, hb⟩)
      · exact hacc.imp (fun hb => ⟨hb, Or.inl hsync⟩) fun hb => ⟨hb, Or.inl hsync⟩
      · exact hacc.imp (fun hb => ⟨hb, Or.inr ⟨ha, hlwsync⟩⟩) fun hb =>
          ⟨hb, Or.inr (Or.inl hlwsync)⟩
      · exact Or.inr ⟨hb, Or.inr (Or.inl hlwsync)⟩
      · exact Or.inr ⟨hb, Or.inr (Or.inr ⟨ha, heieio⟩)⟩
  have hlt {x : IID} (hx : x ∈ tb.ofThread a.pid) :
      pos x < ((tb.thread a.pid).fchCount : Int) := by
    have := (mem_ofThread.mp hx).2
    unfold pos
    omega
  have hsync (hpid : a.pid = b.pid) (hlt : pos b < ((tb.thread a.pid).fchCount : Int)) :
      fenceIdx (tb.getEvt a).syncIdxAfter (tb.thread a.pid).fchCount ≤ pos b ↔
        tb.Between PAEvent.syncIdxAfter a b := by
    rw [fenceIdx_le hlt]
    exact ⟨fun hs => ⟨hpid, hs⟩, fun hs => hs.2⟩
  unfold fencesFrom
  simp only [List.mem_map, List.mem_filter, decide_eq_true_eq, Prod.mk.injEq]
  constructor
  · rintro ⟨x, ⟨hx, -, hpresent, hx'⟩, rfl, rfl⟩
    have hpid := (mem_ofThread.mp hx).1.symm
    exact ⟨hpresent, (hcond hpresent hpid (hlt hx)).mp hx',
      decide_eq_true_iff.trans (hsync hpid (hlt hx))⟩
  · rintro ⟨hpresent, hfence, hs⟩
    have hpid := hfence.pid
    have hmem := h.new.mem_ofThread hpresent
    rw [← hpid] at hmem
    have hb := (hcond hpresent hpid (hlt hmem)).mpr hfence
    refine ⟨b, ⟨hmem, ?_, hpresent, hb⟩, rfl, ?_⟩
    · rcases hb with ⟨-, hb⟩ | ⟨-, hb⟩ <;> omega
    · rw [Bool.eq_iff_iff, decide_eq_true_iff, hs, hsync hpid (hlt hmem)]

theorem lt_fncLoadBefore {E : PAEvent} {p : Int} :
    p < fncLoadBefore E ↔ p < E.syncIdxBefore ∨ p < E.lwsyncIdxBefore := by
  unfold fncLoadBefore
  rw [lt_max_iff]
  exact Or.comm

theorem lt_fncStoreBefore {E : PAEvent} {p : Int} :
    p < fncStoreBefore E ↔ p < E.syncIdxBefore ∨
      E.hasStore = true ∧ (p < E.lwsyncIdxBefore ∨ p < E.eieioIdxBefore) := by
  unfold fncStoreBefore
  split_ifs with hstore
  · simp only [hstore, true_and, lt_max_iff]
  · simp [hstore]

theorem PropReady.mem_fencesTo (h : tb.PropReady evt rel EHB) {a b : IID}
    (hb : tb.Present evt b) :
    a ∈ tb.fencesTo evt b ↔ tb.Present evt a ∧ tb.Fence a b := by
  have hbmem := h.new.present.mpr hb
  have hcond (ha : tb.Present evt a) (hpid : a.pid = b.pid) :
      ((tb.getEvt a).hasLoad = true ∧ pos a < fncLoadBefore (tb.getEvt b) ∨
        (tb.getEvt a).hasStore = true ∧ pos a < fncStoreBefore (tb.getEvt b)) ↔
      tb.Fence a b := by
    have hamem := h.new.present.mpr ha
    have hacc := h.accesses a hamem
    rw [lt_fncLoadBefore, lt_fncStoreBefore, h.sync a hamem b hbmem hpid,
      h.lwsync a hamem b hbmem hpid, h.eieio a hamem b hbmem hpid]
    simp only [Fence, Between, hpid, true_and]
    constructor
    · rintro (⟨ha, hsync | hlwsync⟩ | ⟨ha, hsync | ⟨hb, hlwsync | heieio⟩⟩)
      · exact Or.inl hsync
      · exact Or.inr (Or.inl ⟨hlwsync, Or.inl ha⟩)
      · exact Or.inl hsync
      · exact Or.inr (Or.inl ⟨hlwsync, Or.inr hb⟩)
      · exact Or.inr (Or.inr ⟨heieio, ha, hb⟩)
    · rintro (hsync | ⟨hlwsync, ha | hb⟩ | ⟨heieio, ha, hb⟩)
      · exact hacc.imp (fun ha => ⟨ha, Or.inl hsync⟩) fun ha => ⟨ha, Or.inl hsync⟩
      · exact Or.inl ⟨ha, Or.inr hlwsync⟩
      · exact hacc.imp (fun ha => ⟨ha, Or.inr hlwsync⟩) fun ha => ⟨ha, Or.inr ⟨hb, Or.inl hlwsync⟩⟩
      · exact Or.inr ⟨ha, Or.inr ⟨hb, Or.inr heieio⟩⟩
  unfold fencesTo
  simp only [List.mem_filter, decide_eq_true_eq]
  constructor
  · rintro ⟨ha, -, hpresent, hx⟩
    exact ⟨hpresent, (hcond hpresent (mem_ofThread.mp ha).1).mp hx⟩
  · rintro ⟨hpresent, hfence⟩
    have hpid := hfence.pid
    have ha := (hcond hpresent hpid).mpr hfence
    refine ⟨hpid ▸ h.new.mem_ofThread hpresent, ?_, hpresent, ha⟩
    rcases ha with ⟨-, ha⟩ | ⟨-, ha⟩ <;> omega

/-! ## The search backwards -/

/-- A path of com. -/
abbrev ComPath (tb : TB) (evt : IID) (rel : Relations) : IID → IID → Prop :=
  ReflTransGen (tb.Related evt rel Relations.com)

theorem nodup_present (tb : TB) (evt : IID) : (tb.present evt).Nodup :=
  (nodup_fetched tb).filter _

theorem PropReady.mem_comBwd (h : tb.PropReady evt rel EHB) {a b : IID} (hb : tb.Present evt b)
    (hab : a ∈ tb.comBwd evt rel b) : tb.Present evt a ∧ tb.Related evt rel Relations.com a b := by
  obtain ⟨ha, hrel⟩ := mem_relOf_bwd h.new h.com h.relCom hb hab
  exact ⟨Or.inr ha, hrel⟩

/-- A set of events that has the new event and what is before its members in
com. -/
structure ComClosed (tb : TB) (evt : IID) (rel : Relations) (newProp : List IID) : Prop where
  hasNew : evt ∈ newProp
  present : ∀ a ∈ newProp, tb.Present evt a
  closed : ∀ a ∈ newProp, ∀ b ∈ tb.comBwd evt rel a, b ∈ newProp

theorem ComClosed.mem_of_comPath (h : tb.PropReady evt rel EHB) {newProp : List IID}
    (hc : tb.ComClosed evt rel newProp) {a b : IID} (hpath : tb.ComPath evt rel a b)
    (hb : b ∈ newProp) : a ∈ newProp := by
  induction hpath using ReflTransGen.head_induction_on with
  | refl => exact hb
  | @head a c hac _ ih =>
    rcases hac.bwd h.new h.com with hmem | ⟨rfl, -⟩
    · exact hc.closed c ih a hmem
    · exact hc.hasNew

theorem PropReady.mem_sweep_com (h : tb.PropReady evt rel EHB) {newProp : List IID} {e : IID}
    (hclosed : ∀ a ∈ newProp, ∀ b ∈ tb.comBwd evt rel a, b ∈ newProp) (he : tb.Present evt e)
    (x : IID) :
    x ∈ tb.followComStar evt rel newProp e ↔
      x ∈ newProp ∨ ReflTransGen (fun a b => b ∈ tb.comBwd evt rel a) e x := by
  unfold followComStar
  have hle := openEdges_le (tb.comBwd evt rel) (tb.present evt) newProp
  rw [mem_sweep (tb.comBwd evt rel) (tb.present evt) (nodup_present tb evt)
    (fun a ha b hb => h.new.present.mpr (h.mem_comBwd (h.new.present.mp ha) hb).1)
    _ _ _ (fun a ha => by rw [List.mem_singleton.mp ha]; exact h.new.present.mpr he)
    (fun a ha b hb => Or.inl (hclosed a ha b hb))
    (by unfold comFuel; rw [List.length_singleton]; omega)]
  simp

theorem PropReady.comPath_of_bwd (h : tb.PropReady evt rel EHB) {e x : IID}
    (he : tb.Present evt e) (hpath : ReflTransGen (fun a b => b ∈ tb.comBwd evt rel a) e x) :
    tb.Present evt x ∧ tb.ComPath evt rel x e := by
  induction hpath with
  | refl => exact ⟨he, .refl⟩
  | tail _ hstep ih =>
    obtain ⟨hpresent, hrel⟩ := h.mem_comBwd ih.1 hstep
    exact ⟨hpresent, .head hrel ih.2⟩

/-- The search over com*, from the new event or when it has been entered. -/
theorem PropReady.followComStar (h : tb.PropReady evt rel EHB) {newProp : List IID} {e : IID}
    (hc : newProp = [] ∧ e = evt ∨ tb.ComClosed evt rel newProp) (he : tb.Present evt e) :
    tb.ComClosed evt rel (tb.followComStar evt rel newProp e) ∧
      ∀ x, x ∈ tb.followComStar evt rel newProp e ↔ x ∈ newProp ∨ tb.ComPath evt rel x e := by
  have hold : ∀ a ∈ newProp, tb.Present evt a ∧ ∀ b ∈ tb.comBwd evt rel a, b ∈ newProp := by
    rcases hc with ⟨rfl, -⟩ | hc
    · exact fun a ha => absurd ha List.not_mem_nil
    · exact fun a ha => ⟨hc.present a ha, hc.closed a ha⟩
  have hmem := h.mem_sweep_com (fun a ha => (hold a ha).2) he
  have hclosed : tb.ComClosed evt rel (tb.followComStar evt rel newProp e) := by
    refine ⟨?_, ?_, ?_⟩
    · rcases hc with ⟨-, rfl⟩ | hc
      · exact (hmem e).mpr (Or.inr .refl)
      · exact (hmem evt).mpr (Or.inl hc.hasNew)
    · intro a ha
      rcases (hmem a).mp ha with ha | hpath
      · exact (hold a ha).1
      · exact (h.comPath_of_bwd he hpath).1
    · intro a ha b hb
      rcases (hmem a).mp ha with ha | hpath
      · exact (hmem b).mpr (Or.inl ((hold a ha).2 b hb))
      · exact (hmem b).mpr (Or.inr (hpath.tail hb))
  refine ⟨hclosed, fun x => ?_⟩
  constructor
  · intro hx
    exact ((hmem x).mp hx).imp_right fun hpath => (h.comPath_of_bwd he hpath).2
  · rintro (hx | hpath)
    · exact (hmem x).mpr (Or.inl hx)
    · exact hclosed.mem_of_comPath h hpath ((hmem e).mpr (Or.inr .refl))

theorem PropReady.enterInits (h : tb.PropReady evt rel EHB) {newProp : List IID} {e : IID}
    (hc : tb.ComClosed evt rel newProp) :
    tb.ComClosed evt rel (tb.enterInits evt rel newProp e) ∧
      ∀ x, x ∈ tb.enterInits evt rel newProp e ↔ x ∈ newProp ∨
        ∃ fe ∈ tb.fencesTo evt e, tb.ComPath evt rel x fe := by
  have hpresent : ∀ fe ∈ tb.fencesTo evt e, tb.Present evt fe := by
    intro fe hfe
    unfold fencesTo at hfe
    simp only [List.mem_filter, decide_eq_true_eq] at hfe
    exact hfe.2.2.1
  unfold TB.enterInits
  generalize tb.fencesTo evt e = L at hpresent ⊢
  induction L generalizing newProp with
  | nil => exact ⟨hc, fun x => by simp⟩
  | cons fe L ih =>
    obtain ⟨hc', hmem'⟩ := h.followComStar (Or.inr hc) (hpresent fe List.mem_cons_self)
    obtain ⟨hc'', hmem''⟩ := ih hc' fun a ha => hpresent a (List.mem_cons_of_mem fe ha)
    refine ⟨hc'', fun x => ?_⟩
    rw [List.foldl_cons, hmem'', hmem' x]
    simp only [List.mem_cons, exists_eq_or_imp]
    exact or_assoc

theorem gives_initsEdges {x y : IID × Unit} :
    Gives (tb.initsEdges evt rel EHB) x y ↔ y.1 ∈ (tb.relOf evt rel x.1).hb.bwd ∨
      (x.1 ∈ EHB.afterI ∨ x.1 ∈ EHB.afterC) ∧ y.1 ∈ EHB.I := by
  unfold Gives initsEdges
  constructor
  · rintro ⟨ed, hed, htarget, -⟩
    rcases List.mem_append.mp hed with hed | hed
    · obtain ⟨a, ha, rfl⟩ := mem_edgesTo.mp hed
      exact Or.inl (htarget ▸ ha)
    · split_ifs at hed with hafter
      · obtain ⟨a, ha, rfl⟩ := mem_edgesTo.mp hed
        exact Or.inr ⟨hafter, htarget ▸ ha⟩
      · exact absurd hed List.not_mem_nil
  · rintro (hy | ⟨hafter, hy⟩)
    · exact ⟨_, List.mem_append_left _ (mem_edgesTo.mpr ⟨y.1, hy, rfl⟩), rfl,
        List.mem_singleton.mpr rfl⟩
    · rw [if_pos hafter]
      exact ⟨_, List.mem_append_right _ (mem_edgesTo.mpr ⟨y.1, hy, rfl⟩), rfl,
        List.mem_singleton.mpr rfl⟩

theorem mem_initsFirst {e : IID} : e ∈ initsFirst evt EHB ↔ Start evt EHB e := by
  unfold initsFirst Start
  simp only [List.mem_append, List.mem_reverse, List.mem_singleton, VecSet.mem_vec]
  tauto

/-- An event from which the search backwards starts is reached by followed
edges. -/
def Reached (tb : TB) (evt : IID) (rel : Relations) (EHB : ExtraHB) (e : IID) : Prop :=
  tb.Present evt e ∧ ∃ t, Start evt EHB t ∧ ReflTransGen (tb.Follow evt rel EHB) e t

theorem PropReady.present_start (h : tb.PropReady evt rel EHB) {e : IID}
    (he : Start evt EHB e) : tb.Present evt e := by
  rcases he with rfl | he | he
  · exact Or.inl rfl
  · exact Or.inr (h.extraAfterI e he)
  · exact Or.inr (h.extraAfterC e he)

theorem PropReady.gives_reached (h : tb.PropReady evt rel EHB) {x y : IID × Unit}
    (hx : tb.Present evt x.1) (hxy : Gives (tb.initsEdges evt rel EHB) x y) :
    tb.Present evt y.1 ∧ tb.Follow evt rel EHB y.1 x.1 := by
  rcases gives_initsEdges.mp hxy with hy | ⟨hafter, hy⟩
  · obtain ⟨hc, hrel⟩ := mem_relOf_bwd h.new h.hb h.relHb hx hy
    exact ⟨Or.inr hc, Or.inl hrel⟩
  · exact ⟨Or.inr (h.extraI _ hy), Or.inr ⟨hy, hafter⟩⟩

/-- The first state of the search backwards. -/
def initsState (evt : IID) (EHB : ExtraHB) : State IID Unit :=
  ⟨(initsFirst evt EHB).map fun e => (e, ()), initsFirst evt EHB⟩

theorem PropReady.nodup_initsFirst (h : tb.PropReady evt rel EHB) :
    (initsFirst evt EHB).Nodup := by
  unfold initsFirst
  refine List.nodup_append.mpr ⟨List.nodup_append.mpr ⟨List.nodup_reverse.mpr (VecSet.nodup _),
    List.nodup_reverse.mpr (VecSet.nodup _), ?_⟩, List.nodup_singleton _, ?_⟩
  · rintro a ha b hb rfl
    exact h.disjoint a (List.mem_reverse.mp hb) (List.mem_reverse.mp ha)
  · rintro a ha b hb rfl
    rw [List.mem_singleton.mp hb] at ha
    rcases List.mem_append.mp ha with ha | ha
    · exact h.new.ne (h.extraAfterC evt (List.mem_reverse.mp ha)) rfl
    · exact h.new.ne (h.extraAfterI evt (List.mem_reverse.mp ha)) rfl

theorem PropReady.bounded_inits (h : tb.PropReady evt rel EHB) :
    Bounded (tb.initsEdges evt rel EHB) ((tb.present evt).map fun e => (e, ()))
      (initsState evt EHB) where
  nodup := h.nodup_initsFirst.map fun a b heq => (Prod.mk.inj heq).1
  inside x hx := by
    obtain ⟨e, he, rfl⟩ := List.mem_map.mp hx
    exact List.mem_map_of_mem (h.new.present.mpr (h.present_start (mem_initsFirst.mp he)))
  closed x hx y hxy := by
    obtain ⟨e, he, rfl⟩ := List.mem_map.mp hx
    have hy := (h.gives_reached (h.new.present.mp he) hxy).1
    exact List.mem_map.mpr ⟨y.1, h.new.present.mpr hy, rfl⟩

theorem PropReady.inits_fuel (h : tb.PropReady evt rel EHB) :
    (initsState evt EHB).stack.length +
      (((tb.present evt).map fun e => (e, ())).length - (initsState evt EHB).marks.length) ≤
      2 * tb.fetched.length + 1 := by
  have hle := h.bounded_inits.length_le
  have hpresent : (tb.present evt).length ≤ tb.fetched.length := List.length_filter_le _ _
  unfold initsState at hle ⊢
  simp only [List.length_map] at hle ⊢
  omega

/-- What has been entered for an event that the search has marked. -/
structure FitsInits (tb : TB) (evt : IID) (rel : Relations) (newProp : List IID) (e : IID)
    (c : Set Unit) : Prop where
  closed : tb.ComClosed evt rel newProp
  entered : c.Nonempty → tb.Present evt e → ∀ fe, tb.Present evt fe → tb.Fence fe e →
    ∀ x, tb.ComPath evt rel x fe → x ∈ newProp

theorem ComClosed.empty_fits {newProp : List IID} (h : tb.ComClosed evt rel newProp) (e : IID) :
    FitsInits tb evt rel newProp e ∅ :=
  ⟨h, fun hne => absurd hne Set.not_nonempty_empty⟩

theorem FitsInits.enter (h : tb.PropReady evt rel EHB) {newProp : List IID} {e : IID}
    {c c' : Set Unit} (hfits : FitsInits tb evt rel newProp e c') :
    FitsInits tb evt rel (tb.enterInits evt rel newProp e) e c := by
  obtain ⟨hclosed, hmem⟩ := h.enterInits (e := e) hfits.closed
  exact ⟨hclosed, fun _ he fe hfe hf x hpath =>
    (hmem x).mpr (Or.inr ⟨fe, (h.mem_fencesTo he).mpr ⟨hfe, hf⟩, hpath⟩)⟩

theorem FitsInits.frame (h : tb.PropReady evt rel EHB) {newProp : List IID} {e x : IID}
    {c' : Set Unit} (hfits : FitsInits tb evt rel newProp x c') :
    FitsInits tb evt rel (tb.enterInits evt rel newProp e) x c' := by
  obtain ⟨hclosed, hmem⟩ := h.enterInits (e := e) hfits.closed
  exact ⟨hclosed, fun hne hx fe hfe hf y hpath =>
    (hmem y).mpr (Or.inl (hfits.entered hne hx fe hfe hf y hpath))⟩

theorem record_initsEdges {e : IID} {ed : Edge IID Unit (List IID)}
    (hed : ed ∈ tb.initsEdges evt rel EHB e) (o : List IID) (old new : List Unit) :
    ed.record o ed.target old new = o := by
  unfold initsEdges at hed
  rcases List.mem_append.mp hed with hed | hed
  · obtain ⟨a, -, rfl⟩ := mem_edgesTo.mp hed
    rfl
  · split_ifs at hed
    · obtain ⟨a, -, rfl⟩ := mem_edgesTo.mp hed
      rfl
    · exact absurd hed List.not_mem_nil

/-- The state of the search backwards: what is entered has been found, and what
is marked or on the stack is reached. -/
structure InitsInv (tb : TB) (evt : IID) (rel : Relations) (EHB : ExtraHB)
    (newProp : List IID) (s : State IID Unit) : Prop where
  closed : tb.ComClosed evt rel newProp
  found : ∀ x ∈ newProp, tb.ComPath evt rel x evt ∨ ∃ fe e, tb.Reached evt rel EHB e ∧
    tb.Present evt fe ∧ tb.Fence fe e ∧ tb.ComPath evt rel x fe
  marks : ∀ x ∈ s.marks, tb.Reached evt rel EHB x.1
  stack : ∀ e ∈ s.stack, tb.Reached evt rel EHB e

theorem PropReady.reached_of_gives (h : tb.PropReady evt rel EHB) {x y : IID × Unit}
    (hx : tb.Reached evt rel EHB x.1) (hxy : Gives (tb.initsEdges evt rel EHB) x y) :
    tb.Reached evt rel EHB y.1 := by
  obtain ⟨hpresent, t, ht, hpath⟩ := hx
  obtain ⟨hy, hfollow⟩ := h.gives_reached hpresent hxy
  exact ⟨hy, t, ht, .head hfollow hpath⟩

/-- One round of the search backwards. -/
theorem InitsInv.step (h : tb.PropReady evt rel EHB) {newProp : List IID} {s : State IID Unit}
    {e : IID} {stack : List IID} (hstack : s.stack = e :: stack)
    (hs : InitsInv tb evt rel EHB newProp s) :
    InitsInv tb evt rel EHB
      (expand (tb.initsEdges evt rel EHB) e (tb.enterInits evt rel newProp e, { s with stack })).1
      (expand (tb.initsEdges evt rel EHB) e
        (tb.enterInits evt rel newProp e, { s with stack })).2 := by
  have he := hs.stack e (hstack ▸ List.mem_cons_self)
  obtain ⟨hclosed, hmem⟩ := h.enterInits (e := e) hs.closed
  have hout := expand_record (tb.initsEdges evt rel EHB)
    (fun o _ _ => o = tb.enterInits evt rel newProp e) e
    (fun ed hed o old new _ _ heq => (record_initsEdges hed o old new).trans heq)
    (tb.enterInits evt rel newProp e, { s with stack }) e ∅ rfl
  have hmarks := expand_subset (tb.initsEdges evt rel EHB)
    (P := {x | tb.Reached evt rel EHB x.1}) (fun x hx y hxy => h.reached_of_gives hx hxy) e
    (tb.enterInits evt rel newProp e, { s with stack }) hs.marks
  obtain ⟨p, hp, -, -, hpushed⟩ := (expands_expand (tb.initsEdges evt rel EHB) e
    (tb.enterInits evt rel newProp e, { s with stack })).pushes
  rw [hout]
  refine ⟨hclosed, fun x hx => ?_, hmarks, fun x hx => ?_⟩
  · rcases (hmem x).mp hx with hx | ⟨fe, hfe, hpath⟩
    · exact hs.found x hx
    · obtain ⟨hpresent, hf⟩ := (h.mem_fencesTo he.1).mp hfe
      exact Or.inr ⟨fe, e, he, hpresent, hf, hpath⟩
  · rw [hp] at hx
    rcases List.mem_append.mp hx with hx | hx
    · obtain ⟨m, hm⟩ := hpushed x hx
      exact hmarks (x, m) hm
    · exact hs.stack x (hstack ▸ List.mem_cons_of_mem e hx)

theorem PropReady.first_inits (h : tb.PropReady evt rel EHB) :
    InitsInv tb evt rel EHB (tb.followComStar evt rel [] evt) (initsState evt EHB) := by
  obtain ⟨hclosed, hmem⟩ := h.followComStar (Or.inl ⟨rfl, rfl⟩) (Or.inl rfl)
  have hreached {e : IID} (he : e ∈ initsFirst evt EHB) : tb.Reached evt rel EHB e := by
    have hstart := mem_initsFirst.mp he
    exact ⟨h.present_start hstart, e, hstart, .refl⟩
  refine ⟨hclosed, fun x hx => ?_, fun x hx => ?_, fun e he => hreached he⟩
  · exact Or.inl (((hmem x).mp hx).resolve_left List.not_mem_nil)
  · obtain ⟨e, he, rfl⟩ := List.mem_map.mp hx
    exact hreached he

/-- What is reached by followed edges is marked. -/
theorem PropReady.mark_of_reached (h : tb.PropReady evt rel EHB) {e : IID}
    (he : tb.Reached evt rel EHB e) :
    (e, ()) ∈ (run (tb.initsEdges evt rel EHB)
      (fun newProp e _ => tb.enterInits evt rel newProp e) (2 * tb.fetched.length + 1)
      (tb.followComStar evt rel [] evt, initsState evt EHB)).2.marks := by
  have hmarks := run_marks (fun newProp e _ => tb.enterInits evt rel newProp e)
    (2 * tb.fetched.length + 1) (tb.followComStar evt rel [] evt, initsState evt EHB)
    h.bounded_inits h.inits_fuel (fun x hx => by
      obtain ⟨e, he, rfl⟩ := List.mem_map.mp hx
      exact Or.inl he)
  have hfirst {t : IID} (ht : Start evt EHB t) : (t, ()) ∈ (initsState evt EHB).marks :=
    List.mem_map.mpr ⟨t, mem_initsFirst.mpr ht, rfl⟩
  rw [hmarks]
  obtain ⟨-, t, ht, hpath⟩ := he
  induction hpath using ReflTransGen.head_induction_on with
  | refl => exact ⟨(t, ()), hfirst ht, .refl⟩
  | @head a b hab _ ih =>
    obtain ⟨y, hy, hyb⟩ := ih
    rcases hab with hrel | ⟨ha, hb⟩
    · rcases hrel.bwd h.new h.hb with hmem | ⟨rfl, -⟩
      · exact ⟨y, hy, hyb.tail (gives_initsEdges.mpr (Or.inl hmem))⟩
      · exact ⟨(a, ()), hfirst (Or.inl rfl), .refl⟩
    · exact ⟨y, hy, hyb.tail (gives_initsEdges.mpr (Or.inr ⟨hb, ha⟩))⟩

/-- `calc_prop_inits` finds the events that come to where it starts by edges
that it follows. -/
theorem PropReady.mem_calcPropInits (h : tb.PropReady evt rel EHB) {a : IID} :
    a ∈ tb.calcPropInits evt rel EHB ↔
      Propagation.Found (grown h) evt (Start evt EHB) (tb.Follow evt rel EHB) a := by
  have hinv := run_induct (tb.initsEdges evt rel EHB)
    (fun newProp e _ => tb.enterInits evt rel newProp e) (P := InitsInv tb evt rel EHB)
    (fun o s e stack hstack hs => hs.step h hstack) (2 * tb.fetched.length + 1)
    (tb.followComStar evt rel [] evt, initsState evt EHB) h.first_inits
  have hrun : tb.calcPropInits evt rel EHB = (run (tb.initsEdges evt rel EHB)
      (fun newProp e _ => tb.enterInits evt rel newProp e) (2 * tb.fetched.length + 1)
      (tb.followComStar evt rel [] evt, initsState evt EHB)).1 := rfl
  rw [hrun]
  constructor
  · intro ha
    rcases hinv.found a ha with hcom | ⟨fe, e, ⟨he, t, ht, hpath⟩, hfe, hf, hcom⟩
    · exact Or.inl hcom
    · exact Or.inr ⟨t, ht, fe, e, hcom, ⟨hfe, he, hf⟩, hpath⟩
  · rintro (hcom | ⟨t, ht, fe, e, hcom, ⟨hfe, he, hf⟩, hpath⟩)
    · exact hinv.closed.mem_of_comPath h hcom hinv.closed.hasNew
    · have hfits := run_recorded (tb.initsEdges evt rel EHB)
        (fun newProp e _ => tb.enterInits evt rel newProp e) (FitsInits tb evt rel)
        (fun o e c' c _ hfits _ => hfits.enter h)
        (fun o e c x c' _ hfits => hfits.frame h)
        (fun e ed hed o old new x c' hfits => by rwa [record_initsEdges hed])
        (2 * tb.fetched.length + 1) (tb.followComStar evt rel [] evt, initsState evt EHB)
        h.bounded_inits h.inits_fuel ?_ e
      · exact hfits.entered ⟨(), h.mark_of_reached ⟨he, t, ht, hpath⟩⟩ he fe hfe hf a hcom
      · refine ⟨fun x => ?_, fun x hx => ⟨(), List.mem_map.mpr ⟨x, hx, rfl⟩⟩⟩
        refine ⟨∅, Set.empty_subset _, h.first_inits.closed.empty_fits x, ?_⟩
        by_cases hx : x ∈ initsFirst evt EHB
        · exact Or.inl hx
        · refine Or.inr (Set.eq_empty_iff_forall_notMem.mpr fun m hm => hx ?_).symm
          obtain ⟨y, hy, heq⟩ := List.mem_map.mp hm
          rwa [← (Prod.mk.inj heq).1]

end TB

end ViEqui.Power
