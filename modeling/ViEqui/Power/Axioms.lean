import ViEqui.Power.PropSearch
import ViEqui.Lib.CycleSearch

/-!
# The acyclicity checks

`no_thin_air` searches for a cycle in hb and `propagation` for one in co and prop,
both in the structure that has a new event.  The first one starts from every
event, and the second one only from the new event and from where the new edges of
prop start, which every new cycle goes through.  Both are exact
(`acyclicity_checks`) where no event is ordered before itself by the extra edges,
as `no_thin_air` marks an event after it has entered what is before it.
-/

namespace ViEqui.Power

open Relation Worklist CycleSearch

namespace TB

/-! ## The model -/

/-- The events before `e` in hb, as `no_thin_air` enters them. -/
def thinAirBwd (tb : TB) (evt : IID) (rel : Relations) (EHB : ExtraHB) (e : IID) : List IID :=
  ((tb.relOf evt rel e).hb.bwd.vec ++ (if e ∈ EHB.afterI then EHB.I.vec else []) ++
    (if e ∈ EHB.afterC then EHB.C.vec else []) ++
    if e ∈ rel.hb.fwd then [evt] else []).filter fun e => tb.Present evt e

/-- Steps for a search over the events with the edges `succ`. -/
def searchFuel (tb : TB) (evt : IID) (succ : IID → List IID) : Nat :=
  ((tb.present evt).map fun e => (e :: succ e).length).sum

/-- `no_thin_air`. -/
def noThinAir (tb : TB) (evt : IID) (rel : Relations) (EHB : ExtraHB) : Bool :=
  (searchAll (tb.thinAirBwd evt rel EHB) false
    (1 + tb.searchFuel evt (tb.thinAirBwd evt rel EHB)) (tb.present evt) {}).isSome

/-- The events behind `e` in co and prop, as `propagation` enters them. -/
def propagationFwd (tb : TB) (evt : IID) (rel : Relations) (ER : ExtraRel) (e : IID) :
    List IID :=
  (tb.relOf evt rel e).co.fwd.vec ++ (if e ∈ rel.co.bwd then [evt] else []) ++
    (tb.relOf evt rel e).prop.fwd.vec ++
    (VecSet.ofList ((ER.prop.filter fun pr => pr.1 = e).map Prod.snd)).vec ++
    if e ∈ rel.prop.bwd then [evt] else []

/-- Where `propagation` starts. -/
def propagationFirst (evt : IID) (ER : ExtraRel) : List IID :=
  (VecSet.ofList (ER.prop.map Prod.fst)).vec.reverse ++ [evt]

/-- `propagation`. -/
def propagation (tb : TB) (evt : IID) (rel : Relations) (ER : ExtraRel) : Bool :=
  (search (tb.propagationFwd evt rel ER) true
    ((propagationFirst evt ER).length + tb.searchFuel evt (tb.propagationFwd evt rel ER))
    { stack := propagationFirst evt ER }).isSome

/-! ## The relations that are checked -/

/-- An edge of co or prop, with the extra edges. -/
def OrderEdge (tb : TB) (evt : IID) (rel : Relations) (ER : ExtraRel) (a b : IID) : Prop :=
  tb.Related evt rel Relations.co a b ∨ tb.Related evt rel Relations.prop a b ∨ (a, b) ∈ ER.prop

/-- An event structure whose committed events satisfy the axioms, and a new event
whose relations are not extended yet. -/
structure AxiomsReady (tb : TB) (evt : IID) (rel : Relations) : Prop
    extends tb.PpoReady evt rel where
  com : tb.Mutual Relations.com
  co : tb.Mutual Relations.co
  hb : tb.Mutual Relations.hb
  prop : tb.Mutual Relations.prop
  relCom : tb.Among rel.com
  relCo : tb.Among rel.co
  relHb : tb.Among rel.hb
  relProp : tb.Among rel.prop
  hb_acyclic : ∀ x, ¬ TransGen (tb.RecordedIn Relations.hb) x x
  order_acyclic : ∀ x, ¬ TransGen
    (fun a b => tb.RecordedIn Relations.co a b ∨ tb.RecordedIn Relations.prop a b) x x

variable {tb : TB} {evt : IID} {rel : Relations} {EHB : ExtraHB}

/-! ## What the searches before produce -/

/-- The events of the extra edges are committed. -/
structure ExtraAmong (tb : TB) (EHB : ExtraHB) : Prop where
  I : ∀ e ∈ EHB.I, tb.Committed e
  C : ∀ e ∈ EHB.C, tb.Committed e
  afterI : ∀ e ∈ EHB.afterI, tb.Committed e
  afterC : ∀ e ∈ EHB.afterC, tb.Committed e

theorem PpoReady.extraAmong (h : tb.PpoReady evt rel) :
    tb.ExtraAmong (tb.ppoToHb evt rel).2 := by
  have hbwd {e : IID} {m : Visited} (hne : e ≠ evt) (hm : tb.BwdMark evt rel (e, m)) :
      tb.Committed e := (h.bwdMark_sound hm).1.resolve_left hne
  have hfwd {e : IID} {m : Visited} (hne : e ≠ evt) (hm : tb.FwdMark evt rel (e, m)) :
      tb.Committed e := (h.fwdMark_sound hm).1.resolve_left hne
  have hextra : (tb.ppoToHb evt rel).2 = (tb.ppoAfter evt rel).1 := rfl
  rw [hextra]
  constructor
  · intro e he
    rw [(h.fits_after e).I] at he
    obtain ⟨hne, -, hm⟩ := (h.fits_before e).I.mp he
    exact hbwd hne hm
  · intro e he
    rw [(h.fits_after e).C] at he
    obtain ⟨hne, -, m, hm⟩ := (h.fits_before e).C.mp he
    exact hbwd hne hm
  · intro e he
    obtain ⟨hne, -, hhit⟩ := (h.fits_after e).afterI.mp he
    unfold Hit at hhit
    split_ifs at hhit
    · exact hfwd hne hhit.some_mem
    · exact hhit.elim (hfwd hne) (hfwd hne)
  · intro e he
    obtain ⟨hne, hm⟩ := (h.fits_after e).afterC.mp he
    exact hfwd hne hm

theorem PpoReady.among_hb (h : tb.PpoReady evt rel) (hrel : tb.Among rel.hb) :
    tb.Among (tb.ppoToHb evt rel).1.hb := by
  have hextra := h.extraAmong
  constructor
  · intro e he
    have hfwd : (tb.ppoToHb evt rel).1.hb.fwd = (tb.ppoAfter evt rel).2 := rfl
    rw [hfwd] at he
    rcases (h.fits_after e).fwd.mp he with he | ⟨hne, -, hhit⟩
    · exact hrel.fwd e he
    · by_cases hC : e ∈ (tb.ppoAfter evt rel).1.afterC
      · exact hextra.afterC e hC
      · refine hextra.afterI e ((h.fits_after e).afterI.mpr ⟨hne, fun hm => hC ?_, hhit⟩)
        exact (h.fits_after e).afterC.mpr ⟨hne, hm⟩
  · intro e he
    have hbwd : (tb.ppoToHb evt rel).1.hb.bwd = rel.hb.bwd.insertAll
        (if (tb.getEvt evt).hasStore then (tb.ppoBefore evt rel).C
          else (tb.ppoBefore evt rel).I) := rfl
    rw [hbwd, VecSet.mem_insertAll] at he
    rcases he with he | he
    · exact hrel.bwd e he
    · have hI := (h.fits_after e).I
      have hC := (h.fits_after e).C
      split_ifs at he
      · rw [← hC] at he
        exact hextra.C e he
      · rw [← hI] at he
        exact hextra.I e he

/-- The events of the edges of prop that have been entered are in the structure. -/
def AddedPresent (tb : TB) (evt : IID) (out : PropOut) : Prop :=
  ∀ a b, Added evt out a b → tb.Present evt a ∧ tb.Present evt b

theorem added_of_recordProp {init b : IID} {out : PropOut} (old colour : List PropMark) {x y : IID}
    (h : Added evt (tb.recordProp evt init out b old colour) x y) :
    Added evt out x y ∨ x = init ∧ y = b := by
  unfold recordProp at h
  dsimp only at h
  generalize (if init = evt then out.1.fwd else (tb.getEvt init).rel.prop.fwd) = pfwd at h
  split at h
  · generalize hprop : (if b = evt then { out.1 with bwd := out.1.bwd.insert init } else out.1) =
      prop at h
    -- the edges at the event itself
    have hown : x = evt ∧ y ∈ prop.fwd ∨ y = evt ∧ x ∈ prop.bwd →
        Added evt out x y ∨ x = init ∧ y = b := by
      subst hprop
      split_ifs with hbe
      · rintro (hx | ⟨hy, hx⟩)
        · exact Or.inl (Or.inl hx)
        · rcases VecSet.mem_insert.mp hx with hx | hx
          · exact Or.inr ⟨hx, hy.trans hbe.symm⟩
          · exact Or.inl (Or.inr (Or.inl ⟨hy, hx⟩))
      · rintro (hx | hy)
        · exact Or.inl (Or.inl hx)
        · exact Or.inl (Or.inr (Or.inl hy))
    split at h
    · exact Or.inl h
    · split_ifs at h with hinit hbe hmem
      · rcases h with ⟨hx, hy⟩ | hy | hxy
        · rcases VecSet.mem_insert.mp hy with hy | hy
          · exact Or.inr ⟨hx.trans hinit.symm, hy⟩
          · exact hown (Or.inl ⟨hx, hy⟩)
        · exact hown (Or.inr hy)
        · exact Or.inl (Or.inr (Or.inr hxy))
      · exact (or_assoc.mpr h).elim hown fun hxy => Or.inl (Or.inr (Or.inr hxy))
      · rcases or_assoc.mpr h with h | hxy
        · exact hown h
        · rcases List.mem_append.mp hxy with hxy | hxy
          · exact Or.inl (Or.inr (Or.inr hxy))
          · exact Or.inr (Prod.mk.inj (List.mem_singleton.mp hxy))
      · exact (or_assoc.mpr h).elim hown fun hxy => Or.inl (Or.inr (Or.inr hxy))
  · exact Or.inl h

/-- The search forwards enters edges between events of the structure. -/
theorem AddedPresent.calcPropFrom (out : PropOut) {init : IID}
    (h : tb.AddedPresent evt out) (hinit : tb.Present evt init) :
    tb.AddedPresent evt (tb.calcPropFrom evt rel EHB out init) := by
  unfold TB.calcPropFrom
  refine run_induct (tb.propEdges evt rel EHB init) (fun out _ _ => out)
    (P := fun out _ => tb.AddedPresent evt out) ?_ _ _ h
  intro o s e stack _ ho
  refine expand_induct (tb.propEdges evt rel EHB init) e
    (P := fun out _ => tb.AddedPresent evt out) ?_ _ ho
  intro ed hed o s ho x y hxy
  unfold propEdges at hed
  rcases List.mem_append.mp hed with hed | hed
  · obtain ⟨fe, -, rfl⟩ := List.mem_map.mp hed
    exact ho x y hxy
  · obtain ⟨b, hb, rfl⟩ := List.mem_map.mp hed
    have hpresent := of_decide_eq_true (List.mem_filter.mp hb).2
    rcases added_of_recordProp (s.colour b) _ hxy with hxy | ⟨rfl, rfl⟩
    · exact ho x y hxy
    · exact ⟨hinit, hpresent⟩

/-- The search backwards finds events of the structure. -/
theorem present_calcPropInits (hnew : tb.New evt) (hcom : tb.Mutual Relations.com)
    (hrel : tb.Among rel.com) :
    ∀ e ∈ tb.calcPropInits evt rel EHB, tb.Present evt e := by
  have hsweep (newProp : List IID) (fe : IID) (hold : ∀ a ∈ newProp, tb.Present evt a)
      (hfe : tb.Present evt fe) : ∀ a ∈ tb.followComStar evt rel newProp fe, tb.Present evt a :=
    sweep_subset (P := {a | tb.Present evt a})
      (fun a ha b hb => Or.inr (mem_relOf_bwd hnew hcom hrel ha hb).1) _ newProp [fe] hold
      fun a ha => List.mem_singleton.mp ha ▸ hfe
  refine run_induct (tb.initsEdges evt rel EHB) (fun newProp e _ => tb.enterInits evt rel newProp e)
    (P := fun newProp _ => ∀ a ∈ newProp, tb.Present evt a) ?_ _ _
    (hsweep [] evt (fun a ha => absurd ha List.not_mem_nil) (Or.inl rfl))
  intro newProp s e stack _ hold
  have henter : ∀ a ∈ tb.enterInits evt rel newProp e, tb.Present evt a := by
    unfold enterInits
    have hfences : ∀ fe ∈ tb.fencesTo evt e, tb.Present evt fe := fun fe hfe =>
      (of_decide_eq_true (List.mem_filter.mp hfe).2).2.1
    generalize tb.fencesTo evt e = L at hfences
    induction L generalizing newProp with
    | nil => exact hold
    | cons fe L ih =>
      obtain ⟨hfe, hL⟩ := List.forall_mem_cons.mp hfences
      exact ih (tb.followComStar evt rel newProp fe) (hsweep newProp fe hold hfe) hL
  refine expand_induct (tb.initsEdges evt rel EHB) e
    (P := fun newProp _ => ∀ a ∈ newProp, tb.Present evt a) ?_ _ henter
  intro ed hed o s ho
  have hrecord : (follow e (o, s) ed).1 = o := by
    unfold initsEdges at hed
    rcases List.mem_append.mp hed with hed | hed
    · obtain ⟨a, -, rfl⟩ := mem_edgesTo.mp hed
      rfl
    · split_ifs at hed
      · obtain ⟨a, -, rfl⟩ := mem_edgesTo.mp hed
        rfl
      · exact absurd hed List.not_mem_nil
  rwa [hrecord]

/-- What `calc_prop` enters is in the structure. -/
theorem addedPresent_calcProp (hnew : tb.New evt) (hcom : tb.Mutual Relations.com)
    (hrel : tb.Among rel.com) (hprop : tb.Among rel.prop) :
    tb.AddedPresent evt ((tb.calcProp evt rel { EHB }).1.prop,
      (tb.calcProp evt rel { EHB }).2.prop) := by
  have hfirst : tb.AddedPresent evt (rel.prop, []) := by
    rintro a b (⟨rfl, hb⟩ | ⟨rfl, ha⟩ | hab)
    · exact ⟨Or.inl rfl, Or.inr (hprop.fwd b hb)⟩
    · exact ⟨Or.inr (hprop.bwd a ha), Or.inl rfl⟩
    · exact absurd hab List.not_mem_nil
  have hfold (L : List IID) (hL : ∀ a ∈ L, tb.Present evt a) (out : PropOut)
      (h : tb.AddedPresent evt out) :
      tb.AddedPresent evt (L.foldl (tb.calcPropFrom evt rel EHB) out) := by
    induction L generalizing out with
    | nil => exact h
    | cons a L ih =>
      obtain ⟨ha, hL⟩ := List.forall_mem_cons.mp hL
      exact ih hL _ (h.calcPropFrom out ha)
  exact hfold _ (present_calcPropInits hnew hcom hrel) _ hfirst

/-! ## The searches -/

theorem mem_thinAirBwd {a b : IID} :
    a ∈ tb.thinAirBwd evt rel EHB b ↔ (a ∈ (tb.relOf evt rel b).hb.bwd ∨
      b ∈ EHB.afterI ∧ a ∈ EHB.I ∨ b ∈ EHB.afterC ∧ a ∈ EHB.C ∨
      b ∈ rel.hb.fwd ∧ a = evt) ∧ tb.Present evt a := by
  unfold thinAirBwd
  rw [List.mem_filter, decide_eq_true_iff]
  refine and_congr_left fun _ => ?_
  simp only [List.mem_append, List.mem_ite_nil_right, VecSet.mem_vec, List.mem_singleton, or_assoc]

/-- The search follows the edges of hb backwards. -/
theorem mem_thinAirBwd_iff (hnew : tb.New evt) (hhb : tb.Mutual Relations.hb)
    (hrel : tb.Among rel.hb) (hextra : tb.ExtraAmong EHB) {a b : IID} (hb : tb.Present evt b) :
    a ∈ tb.thinAirBwd evt rel EHB b ↔ tb.HbEdge evt rel EHB a b := by
  rw [mem_thinAirBwd]
  constructor
  · rintro ⟨h | ⟨hafter, ha⟩ | ⟨hafter, ha⟩ | ⟨hfwd, rfl⟩, -⟩
    · exact .related (mem_relOf_bwd hnew hhb hrel hb h).2
    · exact .I ha hafter
    · exact .C ha hafter
    · exact .related (.behind hfwd)
  · intro h
    cases h with
    | related hrelated =>
      refine ⟨?_, (hrelated.present hrel).1⟩
      rcases hrelated.bwd hnew hhb with hmem | ⟨rfl, hmem⟩
      · exact Or.inl hmem
      · exact Or.inr (Or.inr (Or.inr ⟨hmem, rfl⟩))
    | I ha hafter => exact ⟨Or.inr (Or.inl ⟨hafter, ha⟩), Or.inr (hextra.I a ha)⟩
    | C ha hafter => exact ⟨Or.inr (Or.inr (Or.inl ⟨hafter, ha⟩)), Or.inr (hextra.C a ha)⟩

theorem HbEdge.present (hrel : tb.Among rel.hb) (hextra : tb.ExtraAmong EHB) {a b : IID}
    (h : tb.HbEdge evt rel EHB a b) : tb.Present evt a ∧ tb.Present evt b := by
  cases h with
  | related hrelated => exact hrelated.present hrel
  | I ha hafter => exact ⟨Or.inr (hextra.I a ha), Or.inr (hextra.afterI b hafter)⟩
  | C ha hafter => exact ⟨Or.inr (hextra.C a ha), Or.inr (hextra.afterC b hafter)⟩

/-- Without an event that is ordered before itself by one edge, `no_thin_air`
finds whether hb is acyclic. -/
theorem noThinAir_iff (hnew : tb.New evt) (hhb : tb.Mutual Relations.hb)
    (hrel : tb.Among rel.hb) (hextra : tb.ExtraAmong EHB)
    (hself : ∀ x, ¬ tb.HbEdge evt rel EHB x x) :
    tb.noThinAir evt rel EHB = true ↔ ∀ x, ¬ TransGen (tb.HbEdge evt rel EHB) x x := by
  have hmem {a b : IID} (hb : b ∈ tb.present evt) :
      a ∈ tb.thinAirBwd evt rel EHB b ↔ tb.HbEdge evt rel EHB a b :=
    mem_thinAirBwd_iff hnew hhb hrel hextra (hnew.present.mp hb)
  have hclosed : ∀ a ∈ tb.present evt, ∀ b ∈ tb.thinAirBwd evt rel EHB a, b ∈ tb.present evt :=
    fun a _ b hb => hnew.present.mpr (mem_thinAirBwd.mp hb).2
  unfold noThinAir
  rw [searchAll_isSome_iff (fun _ e he hee => hself e ((hmem he).mp hee))
    (tb.nodup_fetched.filter _) hclosed
    (Nat.le_refl (1 + tb.searchFuel evt (tb.thinAirBwd evt rel EHB)))]
  have hcycle {x : IID} (hx : x ∈ tb.present evt) :
      TransGen (CycleSearch.Edge (tb.thinAirBwd evt rel EHB)) x x ↔
        TransGen (tb.HbEdge evt rel EHB) x x := by
    rw [transGen_edge_iff (R := Function.swap (tb.HbEdge evt rel EHB)) (fun b hb a => hmem hb)
      hclosed hx, transGen_swap]
  constructor
  · intro h x hx
    have hpresent : x ∈ tb.present evt := by
      obtain ⟨y, hxy, -⟩ := TransGen.head'_iff.mp hx
      exact hnew.present.mpr (hxy.present hrel hextra).1
    exact h x hpresent ((hcycle hpresent).mpr hx)
  · intro h x hx hx'
    exact h x ((hcycle hx).mp hx')

/-- The search follows the edges of co and prop. -/
theorem mem_propagationFwd_iff {ER : ExtraRel} (hnew : tb.New evt)
    (hco : tb.Mutual Relations.co) (hprop : tb.Mutual Relations.prop)
    (hadded : tb.AddedPresent evt (rel.prop, ER.prop)) {a b : IID} (ha : tb.Present evt a) :
    b ∈ tb.propagationFwd evt rel ER a ↔ tb.OrderEdge evt rel ER a b := by
  unfold propagationFwd
  simp only [List.mem_append, List.mem_ite_nil_right, VecSet.mem_vec, List.mem_singleton, or_assoc]
  have hpairs : b ∈ VecSet.ofList ((ER.prop.filter fun pr => pr.1 = a).map Prod.snd) ↔
      (a, b) ∈ ER.prop := by
    simp
  rw [hpairs]
  constructor
  · rintro (h | ⟨h, rfl⟩ | h | h | ⟨h, rfl⟩)
    · exact Or.inl (related_of_fwd hnew hco ha h)
    · exact Or.inl (.before h)
    · exact Or.inr (Or.inl (related_of_fwd hnew hprop ha h))
    · exact Or.inr (Or.inr h)
    · exact Or.inr (Or.inl (.before h))
  · rintro (hab | hab | h)
    · rcases hab.fwd hnew with h | ⟨heq, h⟩
      · exact Or.inl h
      · exact Or.inr (Or.inl ⟨h, heq⟩)
    · rcases hab.fwd hnew with h | ⟨heq, h⟩
      · exact Or.inr (Or.inr (Or.inl h))
      · exact Or.inr (Or.inr (Or.inr (Or.inr ⟨h, heq⟩)))
    · exact Or.inr (Or.inr (Or.inr (Or.inl h)))

theorem OrderEdge.present {ER : ExtraRel} (hco : tb.Among rel.co)
    (hadded : tb.AddedPresent evt (rel.prop, ER.prop)) {a b : IID}
    (h : tb.OrderEdge evt rel ER a b) : tb.Present evt a ∧ tb.Present evt b := by
  rcases h with h | h | h
  · exact h.present hco
  · cases h with
    | recorded ha hb _ => exact ⟨Or.inr ha, Or.inr hb⟩
    | before h => exact hadded _ _ (Or.inr (Or.inl ⟨rfl, h⟩))
    | behind h => exact hadded _ _ (Or.inl ⟨rfl, h⟩)
  · exact hadded _ _ (Or.inr (Or.inr h))

/-- Where the recorded co and prop are acyclic, `propagation` finds whether they
are with the new edges. -/
theorem propagation_iff {ER : ExtraRel} (hnew : tb.New evt)
    (hco : tb.Mutual Relations.co) (hprop : tb.Mutual Relations.prop)
    (hrel : tb.Among rel.co) (hadded : tb.AddedPresent evt (rel.prop, ER.prop))
    (hacyc : ∀ x, ¬ TransGen
      (fun a b => tb.RecordedIn Relations.co a b ∨ tb.RecordedIn Relations.prop a b) x x) :
    tb.propagation evt rel ER = true ↔ ∀ x, ¬ TransGen (tb.OrderEdge evt rel ER) x x := by
  have hmem {a b : IID} (ha : a ∈ tb.present evt) :
      b ∈ tb.propagationFwd evt rel ER a ↔ tb.OrderEdge evt rel ER a b :=
    mem_propagationFwd_iff hnew hco hprop hadded (hnew.present.mp ha)
  have hclosed : ∀ a ∈ tb.present evt, ∀ b ∈ tb.propagationFwd evt rel ER a,
      b ∈ tb.present evt := fun a ha b hb =>
    hnew.present.mpr (((hmem ha).mp hb).present hrel hadded).2
  have hfirst {e : IID} : e ∈ propagationFirst evt ER ↔ e = evt ∨ ∃ b, (e, b) ∈ ER.prop := by
    unfold propagationFirst
    rw [List.mem_append, List.mem_reverse, VecSet.mem_vec, List.mem_singleton]
    simp [or_comm]
  have hstack : ∀ e ∈ propagationFirst evt ER, e ∈ tb.present evt := by
    intro e he
    rcases hfirst.mp he with rfl | ⟨b, hb⟩
    · exact hnew.present.mpr (Or.inl rfl)
    · exact hnew.present.mpr (hadded e b (Or.inr (Or.inr hb))).1
  have hcycle {x : IID} (hx : x ∈ tb.present evt) :
      TransGen (CycleSearch.Edge (tb.propagationFwd evt rel ER)) x x ↔
        TransGen (tb.OrderEdge evt rel ER) x x :=
    transGen_edge_iff (fun a ha b => hmem ha) hclosed hx
  unfold propagation
  rw [search_isSome_iff (fun h => Bool.noConfusion h) (tb.nodup_fetched.filter _) hclosed hstack
    (Nat.le_refl ((propagationFirst evt ER).length +
      tb.searchFuel evt (tb.propagationFwd evt rel ER)))]
  constructor
  · intro h x hx
    -- a cycle goes through the new event or the source of a new edge
    obtain ⟨y, hy, hy'⟩ := exists_cycle_through (S := {e | e ∈ propagationFirst evt ER})
      (fun a b hab => by
        rcases hab with hab | hab | hab
        · rcases hab.cases_new with hrec | rfl | rfl
          · exact Or.inl (Or.inl hrec)
          · exact Or.inr (Or.inl (hfirst.mpr (Or.inl rfl)))
          · exact Or.inr (Or.inr (hfirst.mpr (Or.inl rfl)))
        · rcases hab.cases_new with hrec | rfl | rfl
          · exact Or.inl (Or.inr hrec)
          · exact Or.inr (Or.inl (hfirst.mpr (Or.inl rfl)))
          · exact Or.inr (Or.inr (hfirst.mpr (Or.inl rfl)))
        · exact Or.inr (Or.inl (hfirst.mpr (Or.inr ⟨b, hab⟩)))) hacyc hx
    exact h y hy y .refl ((hcycle (hstack y hy)).mpr hy')
  · intro h x hx y hxy hy
    exact h y ((hcycle (mem_of_reflTransGen hclosed (hstack x hx) hxy)).mp hy)

/-! ## The result -/

/-- `no_thin_air` and `propagation` decide their axioms for the relations that
`ppo_to_hb` and `calc_prop` produce, where no event is ordered before itself by the
extra edges. -/
theorem acyclicity_checks (h : tb.AxiomsReady evt rel)
    (hI : ∀ e ∈ (tb.ppoToHb evt rel).2.I, e ∉ (tb.ppoToHb evt rel).2.afterI)
    (hC : ∀ e ∈ (tb.ppoToHb evt rel).2.C, e ∉ (tb.ppoToHb evt rel).2.afterC) :
    let (rel', EHB) := tb.ppoToHb evt rel
    let (rel'', ER) := tb.calcProp evt rel' { EHB }
    (tb.noThinAir evt rel' EHB = true ↔ ∀ x, ¬ TransGen (tb.HbEdge evt rel' EHB) x x) ∧
      (tb.propagation evt rel'' ER = true ↔ ∀ x, ¬ TransGen (tb.OrderEdge evt rel'' ER) x x) := by
  have hextra := h.extraAmong
  have hhb := h.among_hb h.relHb
  refine ⟨noThinAir_iff h.new h.hb hhb hextra fun x hx => ?_,
    propagation_iff h.new h.co h.prop h.relCo
      (addedPresent_calcProp h.new h.com h.relCom h.relProp) h.order_acyclic⟩
  cases hx with
  | related hrelated =>
    cases hrelated with
    | recorded ha hb hmem => exact h.hb_acyclic x (.single ⟨ha, hb, hmem⟩)
    | before hmem => exact h.new.ne (hhb.bwd _ hmem) rfl
    | behind hmem => exact h.new.ne (hhb.fwd _ hmem) rfl
  | I hx hafter => exact hI x hx hafter
  | C hx hafter => exact hC x hx hafter

/-- A structure that records no relations satisfies the axioms. -/
theorem AxiomsReady.of_unrelated (hnew : tb.New evt)
    (hnone : ∀ e ∈ tb.fetched, (tb.getEvt e).rel = {})
    (hii0 : tb.Among rel.ii0) (hci0 : tb.Among rel.ci0) (hcc0 : tb.Among rel.cc0)
    (hcom : tb.Among rel.com) (hco : tb.Among rel.co) (hhb : tb.Among rel.hb)
    (hprop : tb.Among rel.prop) : tb.AxiomsReady evt rel := by
  have hmutual (r : Relations → Rel) (hr : r {} = {}) : tb.Mutual r := by
    constructor
    · intro a ha b hb
      rw [hnone a ha.1, hr] at hb
      exact absurd hb (VecSet.not_mem_empty b)
    · intro b hb a ha
      rw [hnone b hb.1, hr] at ha
      exact absurd ha (VecSet.not_mem_empty a)
  have hrecorded (r : Relations → Rel) (hr : r {} = {}) (a b : IID) : ¬ tb.RecordedIn r a b := by
    rintro ⟨ha, -, hb⟩
    rw [hnone a ha.1, hr] at hb
    exact absurd hb (VecSet.not_mem_empty b)
  refine ⟨⟨hnew, hmutual _ rfl, hmutual _ rfl, hmutual _ rfl, hii0, hci0, hcc0⟩, hmutual _ rfl,
    hmutual _ rfl, hmutual _ rfl, hmutual _ rfl, hcom, hco, hhb, hprop, ?_, ?_⟩
  · intro x hx
    obtain ⟨y, hxy, -⟩ := TransGen.head'_iff.mp hx
    exact hrecorded Relations.hb rfl x y hxy
  · intro x hx
    obtain ⟨y, hxy | hxy, -⟩ := TransGen.head'_iff.mp hx
    · exact hrecorded Relations.co rfl x y hxy
    · exact hrecorded Relations.prop rfl x y hxy

theorem acyclicity_checks_threeLoads :
    let (rel', EHB) := threeLoads.ppoToHb ⟨0, 3⟩ oneDependency
    let (rel'', ER) := threeLoads.calcProp ⟨0, 3⟩ rel' { EHB }
    (threeLoads.noThinAir ⟨0, 3⟩ rel' EHB = true ↔
        ∀ x, ¬ TransGen (threeLoads.HbEdge ⟨0, 3⟩ rel' EHB) x x) ∧
      (threeLoads.propagation ⟨0, 3⟩ rel'' ER = true ↔
        ∀ x, ¬ TransGen (threeLoads.OrderEdge ⟨0, 3⟩ rel'' ER) x x) :=
  acyclicity_checks
    (.of_unrelated (by decide) (by decide) (by decide) (by decide) (by decide) (by decide)
      (by decide) (by decide) (by decide))
    (by decide +kernel) (by decide +kernel)

/-- A committed load and a store that is about to be committed. -/
def loadThenStore : TB where
  threads := [{ fchCount := 2 }]
  fch := [[{ committed := true, hasLoad := true }, { hasStore := true }]]

/-- The store depends on the load, and the load on the store. -/
def mutualDependency : Relations where
  ii0 := { bwd := .ofList [⟨0, 1⟩], fwd := .ofList [⟨0, 1⟩] }

/-- The load is then ordered before itself by an extra edge, and `no_thin_air` does
not see that. -/
theorem noThinAir_loadThenStore :
    loadThenStore.AxiomsReady ⟨0, 2⟩ mutualDependency ∧
      let (rel', EHB) := loadThenStore.ppoToHb ⟨0, 2⟩ mutualDependency
      loadThenStore.noThinAir ⟨0, 2⟩ rel' EHB = true ∧
        TransGen (loadThenStore.HbEdge ⟨0, 2⟩ rel' EHB) ⟨0, 1⟩ ⟨0, 1⟩ := by
  have hruns : loadThenStore.noThinAir ⟨0, 2⟩
        (loadThenStore.ppoToHb ⟨0, 2⟩ mutualDependency).1
        (loadThenStore.ppoToHb ⟨0, 2⟩ mutualDependency).2 = true ∧
      ⟨0, 1⟩ ∈ (loadThenStore.ppoToHb ⟨0, 2⟩ mutualDependency).2.I ∧
      ⟨0, 1⟩ ∈ (loadThenStore.ppoToHb ⟨0, 2⟩ mutualDependency).2.afterI := by
    decide +kernel
  refine ⟨.of_unrelated (by decide) (by decide) (by decide) (by decide) (by decide) (by decide)
      (by decide) (by decide) (by decide), hruns.1, .single (.I hruns.2.1 hruns.2.2)⟩

end TB

end ViEqui.Power
