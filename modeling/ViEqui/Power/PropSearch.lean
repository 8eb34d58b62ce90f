import ViEqui.Power.CalcProp

/-!
# The search for new edges of prop

From each event that `calc_prop_inits` finds, `calc_prop` searches forwards over
com*, fences and hb.  The colours at the end are the parts of prop that reach an
event (`PropReady.propMark_iff`), and an edge of prop is entered when hb is
followed into an event with the right colours (`PropReady.mem_calcPropFrom`).
-/

namespace ViEqui.Power

open Relation Worklist

namespace TB

variable {tb : TB} {evt : IID} {rel : Relations} {EHB : ExtraHB}

/-! ## The search over com* -/

theorem PropReady.mem_rfeFwd (h : tb.PropReady evt rel EHB) {init x : IID}
    (hinit : tb.Present evt init) :
    x ∈ tb.rfeFwd evt rel init ↔ (grown h).rfe init x := by
  unfold rfeFwd
  rw [List.mem_append, List.mem_filter, decide_eq_true_iff]
  constructor
  · rintro (⟨hx, hpid⟩ | hx)
    · exact ⟨(mem_relOf_fwd h.new h.rf h.relRf hinit hx).2, Ne.symm hpid⟩
    · split_ifs at hx with hif
      · rw [List.mem_singleton.mp hx]
        exact ⟨.before hif.1, hif.2⟩
      · exact absurd hx List.not_mem_nil
  · rintro ⟨hrel, hpid⟩
    rcases hrel.fwd h.new with hx | ⟨rfl, hinit'⟩
    · exact Or.inl ⟨hx, Ne.symm hpid⟩
    · rw [if_pos ⟨hinit', hpid⟩]
      exact Or.inr (List.mem_singleton.mpr rfl)

theorem mem_propFirst {init : IID} {x : IID × PropMark} :
    x ∈ tb.propFirst evt rel init ↔
      x.1 = init ∧ (x.2 = .RFE ∨ x.2 = .COM) ∨ x.2 = .RFE ∧ x.1 ∈ tb.rfeFwd evt rel init := by
  have hfold (L : List IID) (marks : List (IID × PropMark)) :
      x ∈ L.foldl (fun marks e => addMarks e marks [.RFE]) marks ↔
        x ∈ marks ∨ x.2 = .RFE ∧ x.1 ∈ L := by
    induction L generalizing marks with
    | nil => simp
    | cons e L ih =>
      rw [List.foldl_cons, ih, mem_addMarks, List.mem_singleton, List.mem_cons]
      tauto
  unfold propFirst
  rw [hfold]
  simp only [List.mem_cons, List.not_mem_nil, or_false, Prod.ext_iff]
  tauto

theorem nodup_propFirst (tb : TB) (evt : IID) (rel : Relations) (init : IID) :
    (tb.propFirst evt rel init).Nodup := by
  have hfold (L : List IID) (marks : List (IID × PropMark)) (h : marks.Nodup) :
      (L.foldl (fun marks e => addMarks e marks [.RFE]) marks).Nodup := by
    induction L generalizing marks with
    | nil => exact h
    | cons e L ih => exact ih _ (nodup_addMarks h)
  exact hfold _ _ (by simp)

/-- The marks that the searches can set. -/
def propUniv (tb : TB) (evt : IID) : List (IID × PropMark) :=
  tb.present evt ×ˢ [.RFE, .COM, .L_HB, .R_HB, .R_HB_SNC]

theorem mem_propUniv (h : tb.New evt) {x : IID × PropMark} :
    x ∈ tb.propUniv evt ↔ tb.Present evt x.1 := by
  obtain ⟨e, m⟩ := x
  unfold propUniv
  rw [List.mem_product, h.present]
  cases m <;> simp

theorem length_propUniv_le (tb : TB) (evt : IID) : (tb.propUniv evt).length ≤ 5 * tb.fetched.length := by
  have hle : (tb.present evt).length ≤ tb.fetched.length := List.length_filter_le _ _
  unfold propUniv
  rw [List.length_product]
  simp only [List.length_cons, List.length_nil]
  omega

theorem PropReady.gives_comEdges (h : tb.PropReady evt rel EHB) {x y : IID × PropMark}
    (hx : tb.Present evt x.1) :
    Gives (tb.comEdges evt rel) x y ↔
      tb.Related evt rel Relations.com x.1 y.1 ∧ x.2 = .COM ∧ y.2 = .COM := by
  have htargets : (y.1 ∈ (tb.relOf evt rel x.1).com.fwd.vec ++
      if x.1 ∈ rel.com.bwd then [evt] else []) ↔ tb.Related evt rel Relations.com x.1 y.1 := by
    rw [List.mem_append]
    constructor
    · rintro (hy | hy)
      · exact (mem_relOf_fwd h.new h.com h.relCom hx hy).2
      · split_ifs at hy with hif
        · rw [List.mem_singleton.mp hy]
          exact .before hif
        · exact absurd hy List.not_mem_nil
    · intro hrel
      rcases hrel.fwd h.new with hy | ⟨heq, hmem⟩
      · exact Or.inl hy
      · rw [if_pos hmem]
        exact Or.inr (List.mem_singleton.mpr heq)
  unfold Gives comEdges
  rw [← htargets]
  constructor
  · rintro ⟨ed, hed, htarget, hrule⟩
    obtain ⟨a, ha, rfl⟩ := List.mem_map.mp hed
    dsimp only at htarget hrule
    split_ifs at hrule with hcom
    · exact ⟨htarget ▸ ha, hcom, List.mem_singleton.mp hrule⟩
    · exact absurd hrule List.not_mem_nil
  · rintro ⟨hy, hx, hy2⟩
    exact ⟨_, List.mem_map.mpr ⟨y.1, hy, rfl⟩, rfl, by simp [hx, hy2]⟩

theorem PropReady.bounded_com (h : tb.PropReady evt rel EHB) {init : IID}
    (hinit : tb.Present evt init) :
    Bounded (tb.comEdges evt rel) (tb.propUniv evt) ⟨tb.propFirst evt rel init, [init]⟩ where
  nodup := nodup_propFirst tb evt rel init
  inside x hx := by
    refine (mem_propUniv h.new).mpr ?_
    rcases mem_propFirst.mp hx with ⟨heq, -⟩ | ⟨-, hmem⟩
    · rw [heq]
      exact hinit
    · exact (Related.present h.relRf ((h.mem_rfeFwd hinit).mp hmem).1).2
  closed x hx y hxy := by
    have hpresent := (mem_propUniv h.new).mp hx
    exact (mem_propUniv h.new).mpr
      (Related.present h.relCom ((h.gives_comEdges hpresent).mp hxy).1).2

/-- The colours after the search over com*. -/
theorem PropReady.mem_comSearch (h : tb.PropReady evt rel EHB) {init : IID}
    (hinit : tb.Present evt init) {x : IID × PropMark} :
    x ∈ (tb.comSearch evt rel init).2.marks ↔
      x.2 = .COM ∧ tb.ComPath evt rel init x.1 ∨
        x.2 = .RFE ∧ (x.1 = init ∨ (grown h).rfe init x.1) := by
  have hpresent {y : IID × PropMark} (hy : y ∈ tb.propFirst evt rel init) :
      tb.Present evt y.1 := (mem_propUniv h.new).mp ((h.bounded_com hinit).inside y hy)
  have hpending : Pending (tb.comEdges evt rel) ⟨tb.propFirst evt rel init, [init]⟩ := by
    intro y hy
    rcases mem_propFirst.mp hy with ⟨heq, -⟩ | ⟨hrfe, -⟩
    · exact Or.inl (List.mem_singleton.mpr heq)
    · refine Or.inr fun z hz => ?_
      rw [h.gives_comEdges (hpresent hy), hrfe] at hz
      exact absurd hz.2.1 (by decide)
  have hfuel : [init].length +
      ((tb.propUniv evt).length - (tb.propFirst evt rel init).length) ≤
      5 * tb.fetched.length + 1 := by
    have := length_propUniv_le tb evt
    rw [List.length_singleton]
    omega
  have hmarks := run_marks (fun stack e _ => e :: stack) (5 * tb.fetched.length + 1)
    ([], ⟨tb.propFirst evt rel init, [init]⟩) (h.bounded_com hinit) hfuel hpending x
  unfold comSearch
  rw [hmarks]
  clear hmarks
  constructor
  · rintro ⟨y, hy, hpath⟩
    have hfirst : y.2 = .COM ∧ tb.ComPath evt rel init y.1 ∨
        y.2 = .RFE ∧ (y.1 = init ∨ (grown h).rfe init y.1) := by
      rcases mem_propFirst.mp hy with ⟨heq, hm | hm⟩ | ⟨hm, hmem⟩
      · exact Or.inr ⟨hm, Or.inl heq⟩
      · rw [heq]
        exact Or.inl ⟨hm, .refl⟩
      · exact Or.inr ⟨hm, Or.inr ((h.mem_rfeFwd hinit).mp hmem)⟩
    have hall : tb.Present evt x.1 ∧ (x.2 = .COM ∧ tb.ComPath evt rel init x.1 ∨
        x.2 = .RFE ∧ (x.1 = init ∨ (grown h).rfe init x.1)) := by
      induction hpath with
      | refl => exact ⟨hpresent hy, hfirst⟩
      | tail _ hstep ih =>
        obtain ⟨hrel, hcom, hcom'⟩ := (h.gives_comEdges ih.1).mp hstep
        refine ⟨(Related.present h.relCom hrel).2, Or.inl ⟨hcom', ?_⟩⟩
        rcases ih.2 with ⟨-, hpath⟩ | ⟨hrfe, -⟩
        · exact hpath.tail hrel
        · rw [hcom] at hrfe
          exact absurd hrfe (by decide)
    exact hall.2
  · rintro (⟨hm, hpath⟩ | ⟨hm, hrfe⟩)
    · refine ⟨(init, .COM), mem_propFirst.mpr (Or.inl ⟨rfl, Or.inr rfl⟩), ?_⟩
      obtain ⟨x, m⟩ := x
      obtain rfl : m = .COM := hm
      dsimp only at hpath
      have hall : tb.Present evt x ∧
          ReflTransGen (Gives (tb.comEdges evt rel)) (init, .COM) (x, .COM) := by
        induction hpath with
        | refl => exact ⟨hinit, .refl⟩
        | tail _ hstep ih =>
          exact ⟨(Related.present h.relCom hstep).2,
            ih.2.tail ((h.gives_comEdges ih.1).mpr ⟨hstep, rfl, rfl⟩)⟩
      exact hall.2
    · refine ⟨x, mem_propFirst.mpr ?_, .refl⟩
      rcases hrfe with heq | hrfe
      · exact Or.inl ⟨heq, Or.inl hm⟩
      · exact Or.inr ⟨hm, (h.mem_rfeFwd hinit).mpr hrfe⟩

/-- The stack of the search forwards: what is on it is coloured, and all that
com* reaches is on it. -/
structure ComStack (evt : IID) (stack : List IID) (s : State IID PropMark) : Prop where
  marked : ∀ x ∈ stack, (x, .COM) ∈ s.marks
  waiting : ∀ x ∈ s.stack, (x, .COM) ∈ s.marks

theorem ComStack.follow {e : IID} {os : List IID × State IID PropMark}
    {ed : Edge IID PropMark (List IID)} (hed : ed ∈ tb.comEdges evt rel e)
    (he : (e, .COM) ∈ os.2.marks) (hs : ComStack evt os.1 os.2) :
    ComStack evt (Worklist.follow e os ed).1 (Worklist.follow e os ed).2 := by
  obtain ⟨stack, s⟩ := os
  obtain ⟨ce, -, rfl⟩ := List.mem_map.mp hed
  have hexp := expands_follow e (stack, s)
    { target := ce, rule := fun m => if m = .COM then [.COM] else [],
      record := fun stack ce old _ => if .COM ∈ old then stack else ce :: stack }
  have htarget : (ce, .COM) ∈ (Worklist.follow e (stack, s)
      { target := ce, rule := fun m => if m = .COM then [PropMark.COM] else [],
        record := fun stack ce old _ => if .COM ∈ old then stack else ce :: stack }).2.marks :=
    hexp.complete _ (List.mem_singleton.mpr rfl) .COM (mem_colour.mpr he) .COM (by simp)
  refine ⟨fun x hx => ?_, fun x hx => ?_⟩
  · have hcase : x = ce ∨ x ∈ stack := by
      unfold Worklist.follow at hx
      dsimp only at hx
      split_ifs at hx
      · exact Or.inr hx
      · exact List.mem_cons.mp hx
    rcases hcase with rfl | hx
    · exact htarget
    · exact hexp.grows _ (hs.marked x hx)
  · have hcase : x = ce ∨ x ∈ s.stack := by
      unfold Worklist.follow State.visit at hx
      dsimp only at hx
      split_ifs at hx
      · exact Or.inr hx
      · exact List.mem_cons.mp hx
    rcases hcase with rfl | hx
    · exact htarget
    · exact hexp.grows _ (hs.waiting x hx)

theorem ComStack.expand {e : IID} (os : List IID × State IID PropMark)
    (he : (e, .COM) ∈ os.2.marks) (hs : ComStack evt os.1 os.2) :
    ComStack evt (Worklist.expand (tb.comEdges evt rel) e os).1
      (Worklist.expand (tb.comEdges evt rel) e os).2 :=
  (expand_induct (tb.comEdges evt rel) e
    (P := fun o s => (e, PropMark.COM) ∈ s.marks ∧ ComStack evt o s)
    (fun ed hed o s hs => ⟨(expands_follow e (o, s) ed).grows _ hs.1, hs.2.follow hed hs.1⟩)
    os ⟨he, hs⟩).2

theorem comSearch_stack (tb : TB) (evt : IID) (rel : Relations) (init : IID) :
    ComStack evt (tb.comSearch evt rel init).1 (tb.comSearch evt rel init).2 := by
  refine run_induct _ _ (P := ComStack evt) ?_ _ _ ⟨fun x hx => absurd hx List.not_mem_nil, ?_⟩
  · intro stack s e rest hstack hs
    have he := hs.waiting e (hstack ▸ List.mem_cons_self)
    refine ComStack.expand (e :: stack, { s with stack := rest }) he ⟨fun x hx => ?_,
      fun x hx => hs.waiting x (hstack ▸ List.mem_cons_of_mem e hx)⟩
    rcases List.mem_cons.mp hx with rfl | hx
    · exact he
    · exact hs.marked x hx
  · intro x hx
    rw [List.mem_singleton.mp hx]
    exact mem_propFirst.mpr (Or.inl ⟨rfl, Or.inr rfl⟩)

/-- What com* reaches is on the stack of the search forwards. -/
theorem PropReady.mem_comSearch_stack (h : tb.PropReady evt rel EHB) {init x : IID}
    (hinit : tb.Present evt init) (hpath : tb.ComPath evt rel init x) :
    x ∈ (tb.comSearch evt rel init).1 := by
  have hfits := run_recorded (tb.comEdges evt rel) (fun stack e _ => e :: stack)
    (fun stack e c => PropMark.COM ∈ c → e ∈ stack)
    (fun o e c' c _ _ _ _ => List.mem_cons_self)
    (fun o e c x c' _ hx hc => List.mem_cons_of_mem e (hx hc))
    (fun e ed hed o old new x c' hx hc => by
      obtain ⟨ce, -, rfl⟩ := List.mem_map.mp hed
      dsimp only
      split_ifs
      · exact hx hc
      · exact List.mem_cons_of_mem ce (hx hc))
    (5 * tb.fetched.length + 1) ([], ⟨tb.propFirst evt rel init, [init]⟩) (h.bounded_com hinit)
    (by
      have := length_propUniv_le tb evt
      show [init].length + _ ≤ _
      rw [List.length_singleton]
      omega) ?_ x
  · exact hfits ((h.mem_comSearch hinit).mpr (Or.inl ⟨rfl, hpath⟩))
  · refine ⟨fun y => ?_, fun y hy => ?_⟩
    · by_cases hy : y = init
      · exact ⟨∅, Set.empty_subset _, fun hc => absurd hc (Set.notMem_empty _),
          Or.inl (List.mem_singleton.mpr hy)⟩
      · refine ⟨_, subset_rfl, fun hc => ?_, Or.inr rfl⟩
        rcases mem_propFirst.mp hc with ⟨heq, -⟩ | ⟨hrfe, -⟩
        · exact absurd heq hy
        · exact absurd hrfe (by simp)
    · rw [List.mem_singleton.mp hy]
      exact ⟨.COM, mem_propFirst.mpr (Or.inl ⟨rfl, Or.inr rfl⟩)⟩

/-! ## The search forwards -/

theorem PropReady.mem_hbFwd (h : tb.PropReady evt rel EHB) {a b : IID} (ha : tb.Present evt a) :
    b ∈ (tb.hbFwd evt rel EHB a).filter (fun e2 => tb.Present evt e2) ↔
      tb.HbEdge evt rel EHB a b := by
  unfold hbFwd
  rw [List.mem_filter, decide_eq_true_iff, List.mem_append, List.mem_append]
  constructor
  · rintro ⟨(hb | hb) | hb, -⟩
    · exact .related (mem_relOf_fwd h.new h.hb h.relHb ha hb).2
    · split_ifs at hb with hI hC
      · rcases List.mem_append.mp hb with hb | hb
        · exact .I hI hb
        · exact .C (h.subset a hI) hb
      · exact .C hC hb
      · exact absurd hb List.not_mem_nil
    · split_ifs at hb with hif
      · rw [List.mem_singleton.mp hb]
        exact .related (.before hif)
      · exact absurd hb List.not_mem_nil
  · intro hab
    cases hab with
    | related hrel =>
      refine ⟨?_, (hrel.present h.relHb).2⟩
      rcases hrel.fwd h.new with hb | ⟨heq, hmem⟩
      · exact Or.inl (Or.inl hb)
      · rw [if_pos hmem]
        exact Or.inr (List.mem_singleton.mpr heq)
    | I hI hb =>
      rw [if_pos hI]
      exact ⟨Or.inl (Or.inr (List.mem_append_left _ hb)), Or.inr (h.extraAfterI b hb)⟩
    | C hC hb =>
      refine ⟨Or.inl (Or.inr ?_), Or.inr (h.extraAfterC b hb)⟩
      split_ifs with hI
      · exact List.mem_append_right _ hb
      · exact hb

theorem PropReady.hb_present (h : tb.PropReady evt rel EHB) {a b : IID}
    (hab : tb.HbEdge evt rel EHB a b) : tb.Present evt a ∧ tb.Present evt b := by
  cases hab with
  | related hrel => exact hrel.present h.relHb
  | I hI hb => exact ⟨Or.inr (h.extraI a hI), Or.inr (h.extraAfterI b hb)⟩
  | C hC hb => exact ⟨Or.inr (h.extraC a hC), Or.inr (h.extraAfterC b hb)⟩

theorem mem_fencesRule {s : Bool} {m m' : PropMark} :
    m' ∈ fencesRule s m ↔ m' = .L_HB ∧ (m = .RFE ∨ m = .L_HB) ∨
      m' = .R_HB ∧ (m = .COM ∨ m = .R_HB) ∨ m' = .R_HB_SNC ∧ (m = .R_HB_SNC ∨ s = true) := by
  cases s <;> cases m <;> cases m' <;> decide

theorem mem_hbRule {m m' : PropMark} :
    m' ∈ hbRule m ↔ m' = m ∧ (m = .L_HB ∨ m = .R_HB ∨ m = .R_HB_SNC) := by
  cases m <;> cases m' <;> decide

/-- A mark is passed on along fences or along hb. -/
theorem PropReady.gives_propEdges (h : tb.PropReady evt rel EHB) {init : IID}
    {x y : IID × PropMark} (hx : tb.Present evt x.1) :
    Gives (tb.propEdges evt rel EHB init) x y ↔
      (∃ s, (grown h).fences x.1 y.1 ∧ (s = true ↔ (grown h).ffence x.1 y.1) ∧
        y.2 ∈ fencesRule s x.2) ∨
      (grown h).hb x.1 y.1 ∧ y.2 ∈ hbRule x.2 := by
  have hsync {b : IID} (hb : tb.Present evt b) : (grown h).ffence x.1 b ↔
      tb.Between PAEvent.syncIdxAfter x.1 b := ⟨fun hff => hff.2.2, fun hff => ⟨hx, hb, hff⟩⟩
  unfold Gives propEdges
  constructor
  · rintro ⟨ed, hed, htarget, hrule⟩
    rcases List.mem_append.mp hed with hed | hed
    · obtain ⟨⟨b, s⟩, hb, rfl⟩ := List.mem_map.mp hed
      obtain ⟨hpresent, hf, hs⟩ := h.mem_fencesFrom.mp hb
      obtain rfl : b = y.1 := htarget
      exact Or.inl ⟨s, ⟨hx, hpresent, hf⟩, hs.trans (hsync hpresent).symm, hrule⟩
    · obtain ⟨b, hb, rfl⟩ := List.mem_map.mp hed
      obtain rfl : b = y.1 := htarget
      exact Or.inr ⟨(h.mem_hbFwd hx).mp hb, hrule⟩
  · rintro (⟨s, ⟨-, hpresent, hf⟩, hs, hrule⟩ | ⟨hab, hrule⟩)
    · have hb := h.mem_fencesFrom.mpr ⟨hpresent, hf, hs.trans (hsync hpresent)⟩
      exact ⟨_, List.mem_append_left _ (List.mem_map.mpr ⟨(y.1, s), hb, rfl⟩), rfl, hrule⟩
    · have hb := (h.mem_hbFwd hx).mpr hab
      exact ⟨_, List.mem_append_right _ (List.mem_map.mpr ⟨y.1, hb, rfl⟩), rfl, hrule⟩

/-- What a colour of an event says about its way from `init`. -/
def PropReach (h : tb.PropReady evt rel EHB) (init : IID) (x : IID × PropMark) : Prop :=
  match x.2 with
  | .RFE => x.1 = init ∨ (grown h).rfe init x.1
  | .COM => tb.ComPath evt rel init x.1
  | .L_HB => (grown h).Base init x.1
  | .R_HB => (grown h).After (grown h).hb init x.1
  | .R_HB_SNC => (grown h).Strong init x.1

theorem PropReach.behind {h : tb.PropReady evt rel EHB} {init : IID} {x : IID × PropMark}
    (hx : PropReach h init x) :
    ReflTransGen (grown h).com init x.1 ∨ (grown h).After (grown h).hb init x.1 := by
  obtain ⟨e, m⟩ := x
  cases m with
  | RFE => exact Or.inl (Propagation.Structure.com_of_base hx)
  | COM => exact Or.inl hx
  | L_HB => exact Or.inr (Propagation.Structure.Base.after hx)
  | R_HB => exact Or.inr hx
  | R_HB_SNC => exact Or.inr (Propagation.Structure.Strong.after hx)

theorem PropReach.fences {h : tb.PropReady evt rel EHB} {init : IID} {x y : IID × PropMark}
    {s : Bool} (hx : PropReach h init x) (hf : (grown h).fences x.1 y.1)
    (hs : s = true ↔ (grown h).ffence x.1 y.1) (hrule : y.2 ∈ fencesRule s x.2) :
    PropReach h init y := by
  have hhb := (grown h).fences_hb hf
  have hbehind := hx.behind
  obtain ⟨a, m⟩ := x
  obtain ⟨b, m'⟩ := y
  dsimp only at hf hs hrule hhb hbehind
  rcases mem_fencesRule.mp hrule with ⟨rfl, rfl | rfl⟩ | ⟨rfl, rfl | rfl⟩ | ⟨rfl, rfl | hsync⟩
  · exact ⟨a, b, hx, hf, .refl⟩
  · exact Propagation.Structure.Base.hb hx hhb
  · exact ⟨a, b, hx, hf, .refl⟩
  · exact Propagation.Structure.After.hb hx hhb
  · exact Propagation.Structure.Strong.hb hx hhb
  · exact Propagation.Structure.strong_of_ffence hbehind (hs.mp hsync)

theorem PropReach.hb {h : tb.PropReady evt rel EHB} {init : IID} {x y : IID × PropMark}
    (hx : PropReach h init x) (hhb : (grown h).hb x.1 y.1) (hrule : y.2 ∈ hbRule x.2) :
    PropReach h init y := by
  obtain ⟨a, m⟩ := x
  obtain ⟨b, m'⟩ := y
  obtain ⟨rfl, rfl | rfl | rfl⟩ := mem_hbRule.mp hrule
  · exact Propagation.Structure.Base.hb hx hhb
  · exact Propagation.Structure.After.hb hx hhb
  · exact Propagation.Structure.Strong.hb hx hhb

/-- The first state of the search forwards. -/
def propState (tb : TB) (evt : IID) (rel : Relations) (init : IID) : State IID PropMark :=
  ⟨(tb.comSearch evt rel init).2.marks, (tb.comSearch evt rel init).1⟩

theorem PropReady.gives_present (h : tb.PropReady evt rel EHB) {init : IID}
    {x y : IID × PropMark} (hx : tb.Present evt x.1)
    (hxy : Gives (tb.propEdges evt rel EHB init) x y) : tb.Present evt y.1 := by
  rcases (h.gives_propEdges hx).mp hxy with ⟨s, hf, -, -⟩ | ⟨hhb, -⟩
  · exact hf.2.1
  · exact (h.hb_present hhb).2

theorem PropReady.bounded_prop (h : tb.PropReady evt rel EHB) {init : IID}
    (hinit : tb.Present evt init) :
    Bounded (tb.propEdges evt rel EHB init) (tb.propUniv evt) (propState tb evt rel init) := by
  have hcom := run_induct (tb.comEdges evt rel) (fun stack e _ => e :: stack)
    (P := fun _ s => Bounded (tb.comEdges evt rel) (tb.propUniv evt) s)
    (fun o s e stack _ hs => hs.expand) (5 * tb.fetched.length + 1)
    ([], ⟨tb.propFirst evt rel init, [init]⟩) (h.bounded_com hinit)
  exact ⟨hcom.nodup, hcom.inside, fun x hx y hxy =>
    (mem_propUniv h.new).mpr (h.gives_present ((mem_propUniv h.new).mp hx) hxy)⟩

theorem PropReady.pending_prop (h : tb.PropReady evt rel EHB) {init : IID}
    (hinit : tb.Present evt init) :
    ∀ x ∈ (propState tb evt rel init).marks, x.1 ∈ (propState tb evt rel init).stack := by
  intro x hx
  rcases (h.mem_comSearch hinit).mp hx with ⟨-, hpath⟩ | ⟨-, hrfe⟩
  · exact h.mem_comSearch_stack hinit hpath
  · exact h.mem_comSearch_stack hinit (Propagation.Structure.com_of_base (S := grown h) hrfe)

theorem prop_fuel (tb : TB) (evt : IID) (rel : Relations) (init : IID) :
    (propState tb evt rel init).stack.length +
      ((tb.propUniv evt).length - (propState tb evt rel init).marks.length) ≤
      (tb.comSearch evt rel init).1.length + 5 * tb.fetched.length := by
  have := length_propUniv_le tb evt
  unfold propState
  dsimp only
  omega

/-- The run of the search forwards. -/
def propRun (tb : TB) (evt : IID) (rel : Relations) (EHB : ExtraHB) (out : PropOut)
    (init : IID) : PropOut × State IID PropMark :=
  run (tb.propEdges evt rel EHB init) (fun out _ _ => out)
    ((tb.comSearch evt rel init).1.length + 5 * tb.fetched.length)
    (out, propState tb evt rel init)

theorem calcPropFrom_eq (tb : TB) (evt : IID) (rel : Relations) (EHB : ExtraHB) (out : PropOut)
    (init : IID) :
    tb.calcPropFrom evt rel EHB out init = (propRun tb evt rel EHB out init).1 := rfl

/-- The colours of the search forwards are sound. -/
theorem PropReady.propMark_sound (h : tb.PropReady evt rel EHB) {init : IID}
    (hinit : tb.Present evt init) {out : PropOut} {x : IID × PropMark}
    (hx : x ∈ (propRun tb evt rel EHB out init).2.marks) :
    tb.Present evt x.1 ∧ PropReach h init x := by
  obtain ⟨y, hy, hpath⟩ := (run_marks (fun out _ _ => out) _ (out, propState tb evt rel init)
    (h.bounded_prop hinit) (prop_fuel tb evt rel init)
    (fun x hx => Or.inl (h.pending_prop hinit x hx)) x).mp hx
  clear hx
  induction hpath with
  | refl =>
    refine ⟨(mem_propUniv h.new).mp ((h.bounded_prop hinit).inside y hy), ?_⟩
    obtain ⟨e, m⟩ := y
    rcases (h.mem_comSearch hinit).mp hy with ⟨heq, hpath⟩ | ⟨heq, hrfe⟩
    · obtain rfl : m = .COM := heq
      exact hpath
    · obtain rfl : m = .RFE := heq
      exact hrfe
  | tail _ hstep ih =>
    obtain ⟨hpresent, hreach⟩ := ih
    refine ⟨h.gives_present hpresent hstep, ?_⟩
    rcases (h.gives_propEdges hpresent).mp hstep with ⟨s, hf, hs, hrule⟩ | ⟨hhb, hrule⟩
    · exact hreach.fences hf hs hrule
    · exact hreach.hb hhb hrule

/-- A colour that hb passes on reaches what hb* reaches. -/
theorem PropReady.propMark_hb (h : tb.PropReady evt rel EHB) {init : IID} {out : PropOut}
    {m : PropMark} (hm : m ∈ hbRule m) {a b : IID} (hinit : tb.Present evt init)
    (ha : tb.Present evt a) (hmark : (a, m) ∈ (propRun tb evt rel EHB out init).2.marks)
    (hpath : ReflTransGen (grown h).hb a b) :
    (b, m) ∈ (propRun tb evt rel EHB out init).2.marks := by
  have hclosed := run_marks (fun out _ _ => out) _ (out, propState tb evt rel init)
    (h.bounded_prop hinit) (prop_fuel tb evt rel init)
    (fun x hx => Or.inl (h.pending_prop hinit x hx))
  have hall : tb.Present evt b ∧ (b, m) ∈ (propRun tb evt rel EHB out init).2.marks := by
    induction hpath with
    | refl => exact ⟨ha, hmark⟩
    | tail _ hstep ih =>
      refine ⟨(h.hb_present hstep).2, ?_⟩
      obtain ⟨y, hy, hyb⟩ := (hclosed _).mp ih.2
      exact (hclosed _).mpr ⟨y, hy, hyb.tail ((h.gives_propEdges ih.1).mpr (Or.inr ⟨hstep, hm⟩))⟩
  exact hall.2

/-- A colour behind a fence. -/
theorem PropReady.propMark_fences (h : tb.PropReady evt rel EHB) {init : IID} {out : PropOut}
    {m : PropMark} (m' : PropMark) {s : Bool} {a b : IID} (hinit : tb.Present evt init)
    (hmark : (a, m) ∈ (propRun tb evt rel EHB out init).2.marks)
    (hf : (grown h).fences a b) (hs : s = true ↔ (grown h).ffence a b)
    (hrule : m' ∈ fencesRule s m) :
    (b, m') ∈ (propRun tb evt rel EHB out init).2.marks := by
  have hclosed := run_marks (fun out _ _ => out) _ (out, propState tb evt rel init)
    (h.bounded_prop hinit) (prop_fuel tb evt rel init)
    (fun x hx => Or.inl (h.pending_prop hinit x hx))
  obtain ⟨y, hy, hya⟩ := (hclosed _).mp hmark
  exact (hclosed _).mpr ⟨y, hy,
    hya.tail ((h.gives_propEdges hf.1).mpr (Or.inl ⟨s, hf, hs, hrule⟩))⟩

/-- The two colours at which an edge of prop is entered. -/
theorem PropReady.propMark_iff (h : tb.PropReady evt rel EHB) {init b : IID} (out : PropOut)
    (hinit : tb.Present evt init) :
    ((b, .L_HB) ∈ (propRun tb evt rel EHB out init).2.marks ↔ (grown h).Base init b) ∧
    ((b, .R_HB_SNC) ∈ (propRun tb evt rel EHB out init).2.marks ↔ (grown h).Strong init b) := by
  have hfirst {x : IID × PropMark} (hx : x ∈ (propState tb evt rel init).marks) :
      x ∈ (propRun tb evt rel EHB out init).2.marks := run_grows _ _ _ _ x hx
  have hsync (a c : IID) :
      decide (tb.Present evt a ∧ tb.Present evt c ∧
        (a.pid = c.pid ∧ PAEvent.syncIdxAfter (tb.getEvt a) ≠ -1 ∧
          PAEvent.syncIdxAfter (tb.getEvt a) ≤ pos c)) = true ↔ (grown h).ffence a c :=
    decide_eq_true_iff
  refine ⟨⟨fun hm => (h.propMark_sound hinit hm).2, ?_⟩,
    ⟨fun hm => (h.propMark_sound hinit hm).2, ?_⟩⟩
  · rintro ⟨x, y, hx, hxy, hpath⟩
    have hmark : (x, .RFE) ∈ (propRun tb evt rel EHB out init).2.marks :=
      hfirst ((h.mem_comSearch hinit).mpr (Or.inr ⟨rfl, hx⟩))
    have hy := h.propMark_fences .L_HB hinit hmark hxy (hsync x y)
      (mem_fencesRule.mpr (Or.inl ⟨rfl, Or.inl rfl⟩))
    exact h.propMark_hb (by decide) hinit hxy.2.1 hy hpath
  · intro hstrong
    obtain ⟨y, z, hy, hyz, hpath⟩ := Propagation.Structure.strong_iff.mp hstrong
    have hyz' := (grown h).ffence_fences hyz
    have hmark : ∃ m, (y, m) ∈ (propRun tb evt rel EHB out init).2.marks := by
      rcases hy with hcom | ⟨x, w, hcom, hxw, hwy⟩
      · exact ⟨.COM, hfirst ((h.mem_comSearch hinit).mpr (Or.inl ⟨rfl, hcom⟩))⟩
      · have hx : (x, .COM) ∈ (propRun tb evt rel EHB out init).2.marks :=
          hfirst ((h.mem_comSearch hinit).mpr (Or.inl ⟨rfl, hcom⟩))
        have hw := h.propMark_fences .R_HB hinit hx hxw (hsync x w)
          (mem_fencesRule.mpr (Or.inr (Or.inl ⟨rfl, Or.inl rfl⟩)))
        exact ⟨.R_HB, h.propMark_hb (by decide) hinit hxw.2.1 hw hwy⟩
    obtain ⟨m, hm⟩ := hmark
    have hz := h.propMark_fences .R_HB_SNC (s := true) hinit hm hyz'
      (iff_of_true rfl hyz) (mem_fencesRule.mpr (Or.inr (Or.inr ⟨rfl, Or.inr rfl⟩)))
    exact h.propMark_hb (by decide) hinit hyz'.2.1 hz hpath

/-! ## What is entered -/

/-- An edge of prop that has been entered. -/
def Added (evt : IID) (out : PropOut) (a b : IID) : Prop :=
  a = evt ∧ b ∈ out.1.fwd ∨ b = evt ∧ a ∈ out.1.bwd ∨ (a, b) ∈ out.2

/-- The colours at which an edge of prop to an event is entered. -/
def Due (tb : TB) (init : IID) (x : IID × PropMark) : Prop :=
  (tb.getEvt x.1).hasStore = true ∧ (tb.getEvt init).hasStore = true ∧ x.2 = .L_HB ∨
    x.2 = .R_HB_SNC

theorem exists_due_iff {init b : IID} {colour : List PropMark} :
    (∃ m ∈ colour, tb.Due init (b, m)) ↔
      (tb.getEvt b).hasStore = true ∧ (tb.getEvt init).hasStore = true ∧ .L_HB ∈ colour ∨
        .R_HB_SNC ∈ colour := by
  unfold Due
  constructor
  · rintro ⟨m, hm, ⟨hb, hinit, rfl⟩ | rfl⟩
    · exact Or.inl ⟨hb, hinit, hm⟩
    · exact Or.inr hm
  · rintro (⟨hb, hinit, hm⟩ | hm)
    · exact ⟨_, hm, Or.inl ⟨hb, hinit, rfl⟩⟩
    · exact ⟨_, hm, Or.inr rfl⟩

/-- What `recordProp` enters. -/
theorem PropReady.added_recordProp (h : tb.PropReady evt rel EHB) {init b : IID}
    (hinit : tb.Present evt init) (out : PropOut) (old colour : List PropMark) {x y : IID} :
    Added evt (tb.recordProp evt init out b old colour) x y ↔
      Added evt out x y ∨ (∃ m ∈ colour, tb.Due init (b, m)) ∧ x = init ∧ y = b ∧
        ¬ tb.RecordedIn Relations.prop x y := by
  rw [exists_due_iff]
  unfold recordProp Added
  by_cases hcond : (tb.getEvt b).hasStore = true ∧ (tb.getEvt init).hasStore = true ∧
      .L_HB ∈ colour ∨ .R_HB_SNC ∈ colour
  · rw [if_pos hcond]
    dsimp only
    by_cases hie : init = evt
    · subst hie
      have hno : ¬ tb.RecordedIn Relations.prop init y := fun hrec => h.new.ne hrec.1 rfl
      by_cases hmem : b ∈ out.1.fwd
      · rw [if_pos rfl, if_pos hmem]
        constructor
        · exact Or.inl
        · rintro (hadd | ⟨-, rfl, rfl, -⟩)
          · exact hadd
          · exact Or.inl ⟨rfl, hmem⟩
      · rw [if_pos rfl, if_neg hmem, if_pos rfl]
        by_cases hbe : b = init
        · rw [if_pos hbe]
          simp only [VecSet.mem_insert]
          constructor
          · rintro (⟨rfl, rfl | hy⟩ | ⟨rfl, rfl | hx⟩ | hxy)
            · exact Or.inr ⟨hcond, rfl, rfl, hno⟩
            · exact Or.inl (Or.inl ⟨rfl, hy⟩)
            · exact Or.inr ⟨hcond, rfl, hbe.symm, hno⟩
            · exact Or.inl (Or.inr (Or.inl ⟨rfl, hx⟩))
            · exact Or.inl (Or.inr (Or.inr hxy))
          · rintro ((⟨hx, hy⟩ | ⟨hy, hx⟩ | hxy) | ⟨-, rfl, rfl, -⟩)
            · exact Or.inl ⟨hx, Or.inr hy⟩
            · exact Or.inr (Or.inl ⟨hy, Or.inr hx⟩)
            · exact Or.inr (Or.inr hxy)
            · exact Or.inl ⟨rfl, Or.inl rfl⟩
        · rw [if_neg hbe]
          simp only [VecSet.mem_insert]
          constructor
          · rintro (⟨rfl, rfl | hy⟩ | ⟨rfl, hx⟩ | hxy)
            · exact Or.inr ⟨hcond, rfl, rfl, hno⟩
            · exact Or.inl (Or.inl ⟨rfl, hy⟩)
            · exact Or.inl (Or.inr (Or.inl ⟨rfl, hx⟩))
            · exact Or.inl (Or.inr (Or.inr hxy))
          · rintro ((⟨hx, hy⟩ | ⟨hy, hx⟩ | hxy) | ⟨-, rfl, rfl, -⟩)
            · exact Or.inl ⟨hx, Or.inr hy⟩
            · exact Or.inr (Or.inl ⟨hy, hx⟩)
            · exact Or.inr (Or.inr hxy)
            · exact Or.inl ⟨rfl, Or.inl rfl⟩
    · have hcommitted := hinit.resolve_left hie
      rw [if_neg hie]
      by_cases hmem : b ∈ (tb.getEvt init).rel.prop.fwd
      · rw [if_pos hmem]
        constructor
        · exact Or.inl
        · rintro (hadd | ⟨-, rfl, rfl, hrec⟩)
          · exact hadd
          · exact absurd ⟨hcommitted, (h.prop.fwd x hcommitted y hmem).1, hmem⟩ hrec
      · have hno : ¬ tb.RecordedIn Relations.prop init b := fun hrec => hmem hrec.2.2
        rw [if_neg hmem, if_neg hie]
        by_cases hbe : b = evt
        · rw [if_pos hbe, if_neg (not_not.mpr hbe)]
          simp only [VecSet.mem_insert]
          constructor
          · rintro (⟨rfl, hy⟩ | ⟨rfl, rfl | hx⟩ | hxy)
            · exact Or.inl (Or.inl ⟨rfl, hy⟩)
            · exact Or.inr ⟨hcond, rfl, hbe.symm, hbe ▸ hno⟩
            · exact Or.inl (Or.inr (Or.inl ⟨rfl, hx⟩))
            · exact Or.inl (Or.inr (Or.inr hxy))
          · rintro ((hadd | ⟨hy, hx⟩ | hxy) | ⟨-, rfl, rfl, -⟩)
            · exact Or.inl hadd
            · exact Or.inr (Or.inl ⟨hy, Or.inr hx⟩)
            · exact Or.inr (Or.inr hxy)
            · exact Or.inr (Or.inl ⟨hbe, Or.inl rfl⟩)
        · have hpairs : (x, y) ∈ (if (init, b) ∈ out.2 then out.2 else out.2 ++ [(init, b)]) ↔
              (x, y) ∈ out.2 ∨ x = init ∧ y = b := by
            split_ifs with hin
            · constructor
              · exact Or.inl
              · rintro (hxy | ⟨rfl, rfl⟩)
                · exact hxy
                · exact hin
            · rw [List.mem_append, List.mem_singleton, Prod.mk.injEq]
          rw [if_neg hbe, if_pos hbe]
          dsimp only
          rw [hpairs]
          constructor
          · rintro (hadd | hadd | hxy | ⟨rfl, rfl⟩)
            · exact Or.inl (Or.inl hadd)
            · exact Or.inl (Or.inr (Or.inl hadd))
            · exact Or.inl (Or.inr (Or.inr hxy))
            · exact Or.inr ⟨hcond, rfl, rfl, hno⟩
          · rintro ((hadd | hadd | hxy) | ⟨-, hx, hy, -⟩)
            · exact Or.inl hadd
            · exact Or.inr (Or.inl hadd)
            · exact Or.inr (Or.inr (Or.inl hxy))
            · exact Or.inr (Or.inr (Or.inr ⟨hx, hy⟩))
  · rw [if_neg hcond]
    exact ⟨Or.inl, fun hadd => hadd.resolve_right fun hdue => hcond hdue.1⟩

/-- Following an edge enters nothing, or an edge of prop into an event that has
one of the two colours then. -/
theorem PropReady.added_follow (h : tb.PropReady evt rel EHB) {init e : IID}
    (hinit : tb.Present evt init) {os : PropOut × State IID PropMark}
    {ed : Edge IID PropMark PropOut} (hed : ed ∈ tb.propEdges evt rel EHB init e) {x y : IID} :
    Added evt (follow e os ed).1 x y ↔ Added evt os.1 x y ∨
      (ed.rule = hbRule ∧ ∃ m, (ed.target, m) ∈ (follow e os ed).2.marks ∧
        tb.Due init (ed.target, m)) ∧ x = init ∧ y = ed.target ∧
        ¬ tb.RecordedIn Relations.prop x y := by
  obtain ⟨out, s⟩ := os
  unfold propEdges at hed
  rcases List.mem_append.mp hed with hed | hed
  · obtain ⟨⟨b, sync⟩, -, rfl⟩ := List.mem_map.mp hed
    have hrule : fencesRule sync ≠ hbRule := by
      intro heq
      have hcom := congrFun heq .COM
      cases sync <;> exact absurd hcom (by decide)
    exact ⟨Or.inl, fun hadd => hadd.resolve_right fun hdue => hrule hdue.1.1⟩
  · obtain ⟨b, -, rfl⟩ := List.mem_map.mp hed
    have hadd := h.added_recordProp (b := b) hinit out (s.colour b)
      ((follow e (out, s) (⟨b, hbRule, tb.recordProp evt init⟩ :
        Edge IID PropMark PropOut)).2.colour b) (x := x) (y := y)
    simp only [mem_colour] at hadd
    rw [show (follow e (out, s) (⟨b, hbRule, tb.recordProp evt init⟩ :
      Edge IID PropMark PropOut)).1 = tb.recordProp evt init out b (s.colour b)
        ((follow e (out, s) (⟨b, hbRule, tb.recordProp evt init⟩ :
          Edge IID PropMark PropOut)).2.colour b) from rfl, hadd]
    simp only [true_and]

/-- What has been entered stays. -/
theorem PropReady.added_expand (h : tb.PropReady evt rel EHB) {init e : IID}
    (hinit : tb.Present evt init) {os : PropOut × State IID PropMark} {x y : IID}
    (hadd : Added evt os.1 x y) :
    Added evt (expand (tb.propEdges evt rel EHB init) e os).1 x y :=
  expand_induct (tb.propEdges evt rel EHB init) e (P := fun o _ => Added evt o x y)
    (fun _ hed _ _ ho => (h.added_follow hinit hed).mpr (Or.inl ho)) os hadd

/-- What is entered on the way is due by the colours. -/
theorem PropReady.added_sound (h : tb.PropReady evt rel EHB) {init : IID}
    (hinit : tb.Present evt init) {out : PropOut} {x y : IID}
    (hadd : Added evt (propRun tb evt rel EHB out init).1 x y) :
    Added evt out x y ∨ x = init ∧ ¬ tb.RecordedIn Relations.prop x y ∧
      ∃ m, (y, m) ∈ (propRun tb evt rel EHB out init).2.marks ∧ tb.Due init (y, m) := by
  refine run_induct (tb.propEdges evt rel EHB init) (fun out _ _ => out)
    (P := fun o s => ∀ x y, Added evt o x y → Added evt out x y ∨
      x = init ∧ ¬ tb.RecordedIn Relations.prop x y ∧ ∃ m, (y, m) ∈ s.marks ∧ tb.Due init (y, m))
    ?_ _ _ (fun x y hxy => Or.inl hxy) x y hadd
  intro o s e stack _ hs
  refine expand_induct (tb.propEdges evt rel EHB init) e
    (P := fun o s => ∀ x y, Added evt o x y → Added evt out x y ∨
      x = init ∧ ¬ tb.RecordedIn Relations.prop x y ∧ ∃ m, (y, m) ∈ s.marks ∧ tb.Due init (y, m))
    ?_ (o, { s with stack }) hs
  intro ed hed o s hs x y hxy
  rcases (h.added_follow hinit hed).mp hxy with hxy | ⟨⟨-, m, hm, hdue⟩, rfl, rfl, hrec⟩
  · rcases hs x y hxy with hold | ⟨hx, hrec, m, hm, hdue⟩
    · exact Or.inl hold
    · exact Or.inr ⟨hx, hrec, m, (expands_follow e (o, s) ed).grows _ hm, hdue⟩
  · exact Or.inr ⟨rfl, hrec, m, hm, hdue⟩

/-- What has been entered for an event with the marks `c`: the edges of prop to
the events that it gives a due colour. -/
def FitsProp (tb : TB) (evt : IID) (rel : Relations) (EHB : ExtraHB) (init : IID) (out : PropOut)
    (e : IID) (c : Set PropMark) : Prop :=
  tb.Present evt e → ∀ m ∈ c, ∀ y, Gives (tb.propEdges evt rel EHB init) (e, m) y →
    tb.Due init y → ¬ tb.RecordedIn Relations.prop init y.1 → Added evt out init y.1

/-- Following the edges of an event enters what is due.  Its edge of hb comes
after those of fences. -/
theorem PropReady.fits_expand (h : tb.PropReady evt rel EHB) {init e : IID}
    (hinit : tb.Present evt init) (os : PropOut × State IID PropMark) :
    FitsProp tb evt rel EHB init (expand (tb.propEdges evt rel EHB init) e os).1 e
      (os.2.marksOf e) := by
  intro he m hm y hgives hdue hrec
  have hhb : y.1 ∈ (tb.hbFwd evt rel EHB e).filter fun e2 => tb.Present evt e2 := by
    refine (h.mem_hbFwd he).mpr ?_
    rcases (h.gives_propEdges he).mp hgives with ⟨s, hf, -, -⟩ | ⟨hhb, -⟩
    · exact (grown h).fences_hb hf
    · exact hhb
  obtain ⟨pre, post, hsplit⟩ := List.append_of_mem hhb
  obtain ⟨F, hF⟩ : ∃ F : List (Edge IID PropMark PropOut),
      F = (tb.fencesFrom evt e).map fun fe => { target := fe.1, rule := fencesRule fe.2 } :=
    ⟨_, rfl⟩
  obtain ⟨ed, hed⟩ : ∃ ed : Edge IID PropMark PropOut,
      ed = { target := y.1, rule := hbRule, record := tb.recordProp evt init } := ⟨_, rfl⟩
  obtain ⟨H, hH⟩ : ∃ H : List IID → List (Edge IID PropMark PropOut),
      H = fun L => L.map fun e2 => ⟨e2, hbRule, tb.recordProp evt init⟩ := ⟨_, rfl⟩
  have hedges : tb.propEdges evt rel EHB init e = (F ++ H pre) ++ ed :: H post := by
    unfold propEdges
    rw [hsplit, hF, hed, hH, List.map_append, List.map_cons, List.append_assoc]
  have hmem : ed ∈ tb.propEdges evt rel EHB init e := by
    rw [hedges]
    exact List.mem_append_right _ List.mem_cons_self
  -- after the edges up to this one the target has the due colour
  have hexp := (expands_foldl e (F ++ H pre) os).append
    (expands_follow e ((F ++ H pre).foldl (follow e) os) ed)
  have hcolour : y ∈ (follow e ((F ++ H pre).foldl (follow e) os) ed).2.marks := by
    rcases (h.gives_propEdges he).mp hgives with ⟨s, hf, hs, hrule⟩ | ⟨-, hrule⟩
    · have hfence : (y.1, s) ∈ tb.fencesFrom evt e := by
        refine h.mem_fencesFrom.mpr ⟨hf.2.1, hf.2.2, hs.trans ?_⟩
        exact ⟨fun hff => hff.2.2, fun hff => ⟨he, hf.2.1, hff⟩⟩
      refine hexp.complete ⟨y.1, fencesRule s, fun o _ _ _ => o⟩ ?_ m (mem_colour.mpr hm) y.2 hrule
      rw [hF]
      exact List.mem_append_left _ (List.mem_append_left _ (List.mem_map.mpr ⟨(y.1, s), hfence, rfl⟩))
    · have := hexp.complete ed (List.mem_append_right _ (List.mem_singleton.mpr rfl)) m
        (mem_colour.mpr hm) y.2 (by rw [hed]; exact hrule)
      rw [hed] at this ⊢
      exact this
  have hadd : Added evt (follow e ((F ++ H pre).foldl (follow e) os) ed).1 init y.1 := by
    refine (h.added_follow hinit hmem).mpr (Or.inr ⟨⟨by rw [hed], y.2, ?_, ?_⟩, rfl, ?_, hrec⟩)
    · rw [hed] at hcolour ⊢
      exact hcolour
    · rw [hed]
      exact hdue
    · rw [hed]
  have hkeep (L : List (Edge IID PropMark PropOut)) (hL : L ⊆ tb.propEdges evt rel EHB init e)
      (os : PropOut × State IID PropMark) (hadd : Added evt os.1 init y.1) :
      Added evt (L.foldl (follow e) os).1 init y.1 := by
    induction L generalizing os with
    | nil => exact hadd
    | cons ed L ih =>
      exact ih (fun a ha => hL (List.mem_cons_of_mem ed ha)) _
        ((h.added_follow hinit (hL List.mem_cons_self)).mpr (Or.inl hadd))
  unfold expand
  rw [hedges, List.foldl_append, List.foldl_cons]
  refine hkeep _ (fun a ha => ?_) _ hadd
  rw [hedges]
  exact List.mem_append_right _ (List.mem_cons_of_mem ed ha)

theorem PropReady.fits_prop (h : tb.PropReady evt rel EHB) {init : IID}
    (hinit : tb.Present evt init) (out : PropOut) (e : IID) :
    FitsProp tb evt rel EHB init (propRun tb evt rel EHB out init).1 e
      ((propRun tb evt rel EHB out init).2.marksOf e) := by
  refine run_fits (tb.propEdges evt rel EHB init) (fun out _ _ => out)
    (FitsProp tb evt rel EHB init) (fun o s e stack c' _ _ _ _ => ?_)
    (fun o s e stack x c' _ _ hfits hx m hm y hgives hdue hrec =>
      h.added_expand hinit (hfits hx m hm y hgives hdue hrec))
    _ _ (h.bounded_prop hinit) (prop_fuel tb evt rel init) ⟨fun x => ?_, fun x hx => ?_⟩ e
  · exact h.fits_expand hinit (o, { s with stack })
  · refine ⟨∅, Set.empty_subset _, fun _ m hm => absurd hm (Set.notMem_empty m), ?_⟩
    by_cases hx : x ∈ (propState tb evt rel init).stack
    · exact Or.inl hx
    · refine Or.inr (Set.eq_empty_iff_forall_notMem.mpr fun m hm => hx ?_).symm
      exact h.pending_prop hinit (x, m) hm
  · exact ⟨.COM, (comSearch_stack tb evt rel init).marked x hx⟩

/-- From one event, `calc_prop` enters the edges of prop that start there and
are not recorded. -/
theorem PropReady.mem_calcPropFrom (h : tb.PropReady evt rel EHB) {init : IID}
    (hinit : tb.Present evt init) {out : PropOut} {x y : IID} :
    Added evt (tb.calcPropFrom evt rel EHB out init) x y ↔ Added evt out x y ∨
      x = init ∧ ¬ tb.RecordedIn Relations.prop x y ∧ (grown h).Propagates x y := by
  rw [calcPropFrom_eq]
  have hmark (b : IID) := h.propMark_iff (b := b) out hinit
  constructor
  · intro hadd
    rcases h.added_sound hinit hadd with hold | ⟨rfl, hrec, m, hm, hdue⟩
    · exact Or.inl hold
    · refine Or.inr ⟨rfl, hrec, ?_⟩
      obtain ⟨hpresent, -⟩ := h.propMark_sound hinit hm
      rcases hdue with ⟨hy, hx, heq⟩ | heq
      · obtain rfl : m = .L_HB := heq
        exact Or.inl ⟨⟨hinit, hx⟩, ⟨hpresent, hy⟩, (hmark y).1.mp hm⟩
      · obtain rfl : m = .R_HB_SNC := heq
        exact Or.inr ((hmark y).2.mp hm)
  · rintro (hadd | ⟨rfl, hrec, hprop⟩)
    · exact run_induct (tb.propEdges evt rel EHB init) (fun out _ _ => out)
        (P := fun o _ => Added evt o x y) (fun o s e stack _ ho => h.added_expand hinit ho) _ _ hadd
    · -- the last step into a due colour
      have hdue : ∃ m, (y, m) ∈ (propRun tb evt rel EHB out x).2.marks ∧ tb.Due x (y, m) := by
        rcases hprop with ⟨hx, hy, hbase⟩ | hstrong
        · exact ⟨.L_HB, (hmark y).1.mpr hbase, Or.inl ⟨hy.2, hx.2, rfl⟩⟩
        · exact ⟨.R_HB_SNC, (hmark y).2.mpr hstrong, Or.inr rfl⟩
      obtain ⟨m, hm, hdue⟩ := hdue
      have hclosed := run_marks (fun out _ _ => out) _ (out, propState tb evt rel x)
        (h.bounded_prop hinit) (prop_fuel tb evt rel x)
        (fun x hx => Or.inl (h.pending_prop hinit x hx))
      obtain ⟨z, hz, hpath⟩ := (hclosed _).mp hm
      rcases hpath.cases_tail with heq | ⟨w, hw, hgives⟩
      · subst heq
        rcases (h.mem_comSearch hinit).mp hz with ⟨hcom, -⟩ | ⟨hrfe, -⟩
        · obtain rfl : m = .COM := hcom
          exact absurd hdue (by simp [Due])
        · obtain rfl : m = .RFE := hrfe
          exact absurd hdue (by simp [Due])
      · have hwmark := (hclosed w).mpr ⟨z, hz, hw⟩
        exact h.fits_prop hinit out w.1 (h.propMark_sound hinit hwmark).1 w.2 hwmark (y, m) hgives
          hdue hrec

/-! ## The result -/

/-- What `calc_prop` enters: the edges of prop that are not recorded, from the
events that the search backwards finds. -/
theorem PropReady.mem_calcProp {ER : ExtraRel} (h : tb.PropReady evt rel ER.EHB)
    (hrel : rel.prop = {}) (hER : ER.prop = []) {x y : IID} :
    Added evt ((tb.calcProp evt rel ER).1.prop, (tb.calcProp evt rel ER).2.prop) x y ↔
      Propagation.Found (grown h) evt (Start evt ER.EHB) (tb.Follow evt rel ER.EHB) x ∧
        ¬ tb.RecordedIn Relations.prop x y ∧ (grown h).Propagates x y := by
  have hpresent : ∀ a ∈ tb.calcPropInits evt rel ER.EHB, tb.Present evt a := by
    intro a ha
    rcases h.mem_calcPropInits.mp ha with hpath | ⟨t, -, u, v, hpath, huv, -⟩
    · rcases hpath.cases_head with rfl | ⟨b, hab, -⟩
      · exact Or.inl rfl
      · exact (Related.present h.relCom hab).1
    · rcases hpath.cases_head with rfl | ⟨b, hab, -⟩
      · exact huv.1
      · exact (Related.present h.relCom hab).1
  have hfold (L : List IID) (hL : ∀ a ∈ L, tb.Present evt a) (out : PropOut) :
      Added evt (L.foldl (tb.calcPropFrom evt rel ER.EHB) out) x y ↔ Added evt out x y ∨
        x ∈ L ∧ ¬ tb.RecordedIn Relations.prop x y ∧ (grown h).Propagates x y := by
    induction L generalizing out with
    | nil => simp
    | cons a L ih =>
      rw [List.foldl_cons, ih (fun b hb => hL b (List.mem_cons_of_mem a hb)),
        h.mem_calcPropFrom (hL a List.mem_cons_self), List.mem_cons]
      tauto
  have hnone : ¬ Added evt (rel.prop, ER.prop) x y := by
    rw [hrel, hER]
    simp [Added]
  show Added evt ((tb.calcPropInits evt rel ER.EHB).foldl (tb.calcPropFrom evt rel ER.EHB)
    (rel.prop, ER.prop)) x y ↔ _
  rw [hfold _ hpresent, h.mem_calcPropInits]
  tauto

/-- The first thread has read a store behind a sync of the second thread and
stores what it has read.  The first of two overlapping loads reads that store; the
second load, which is about to be committed, overlaps a later store as well. -/
def overlappingLoads : TB where
  threads := [{ fchCount := 5 }, { fchCount := 2 }]
  fch := [
    [{ committed := true
       hasLoad := true
       rel := {
         rf := { bwd := .ofList [⟨1, 2⟩] }
         com := { bwd := .ofList [⟨1, 2⟩] }
         ii0 := { fwd := .ofList [⟨0, 2⟩] }
         cc0 := { fwd := .ofList [⟨0, 2⟩] }
         hb := { bwd := .ofList [⟨1, 2⟩], fwd := .ofList [⟨0, 2⟩, ⟨0, 3⟩] }
         prop := { bwd := .ofList [⟨1, 1⟩] } } },
     { committed := true
       hasStore := true
       rel := {
         rf := { fwd := .ofList [⟨0, 3⟩] }
         com := { fwd := .ofList [⟨0, 3⟩] }
         ii0 := { bwd := .ofList [⟨0, 1⟩], fwd := .ofList [⟨0, 3⟩] }
         cc0 := { bwd := .ofList [⟨0, 1⟩], fwd := .ofList [⟨0, 3⟩] }
         hb := { bwd := .ofList [⟨0, 1⟩] }
         prop := { bwd := .ofList [⟨1, 1⟩] } } },
     { committed := true
       hasLoad := true
       rel := {
         rf := { bwd := .ofList [⟨0, 2⟩] }
         com := { bwd := .ofList [⟨0, 2⟩] }
         ii0 := { bwd := .ofList [⟨0, 2⟩] }
         cc0 := { bwd := .ofList [⟨0, 2⟩] }
         hb := { bwd := .ofList [⟨0, 1⟩] }
         prop := { bwd := .ofList [⟨1, 1⟩] } } },
     { hasLoad := true },
     { committed := true, hasStore := true }],
    [{ committed := true
       hasStore := true
       syncIdxAfter := 1
       rel := {
         hb := { fwd := .ofList [⟨1, 2⟩] }
         prop := { fwd := .ofList [⟨1, 2⟩, ⟨0, 1⟩, ⟨0, 2⟩, ⟨0, 3⟩] } } },
     { committed := true
       hasStore := true
       syncIdxBefore := 1
       rel := {
         rf := { fwd := .ofList [⟨0, 1⟩] }
         com := { fwd := .ofList [⟨0, 1⟩] }
         hb := { bwd := .ofList [⟨1, 1⟩], fwd := .ofList [⟨0, 1⟩] }
         prop := { bwd := .ofList [⟨1, 1⟩] } } }]]

/-- The second load is behind the first one, and before the store that it does not
read. -/
def betweenLoadAndStore : Relations where
  com := { fwd := .ofList [⟨0, 5⟩] }
  poloc := { bwd := .ofList [⟨0, 3⟩], fwd := .ofList [⟨0, 5⟩] }
  cc0 := { bwd := .ofList [⟨0, 3⟩], fwd := .ofList [⟨0, 5⟩] }

/-- The commit points of the loads are before the store; the initiation point of
the second load is not behind them. -/
def loadsBeforeStore : ExtraRel where
  EHB := { C := .ofList [⟨0, 1⟩, ⟨0, 3⟩], afterC := .ofList [⟨0, 5⟩] }

def orderedLoad : Relations :=
  { betweenLoadAndStore with hb := { fwd := .ofList [⟨0, 5⟩] } }

theorem overlappingLoads_ready :
    overlappingLoads.PropReady ⟨0, 4⟩ orderedLoad loadsBeforeStore.EHB where
  new := by decide
  com := by decide
  rf := by decide
  hb := by decide
  prop := by decide
  relCom := by decide
  relRf := by decide
  relHb := by decide
  extraI := by decide
  extraC := by decide
  extraAfterI := by decide
  extraAfterC := by decide
  subset := by decide
  disjoint := by decide
  accesses := by decide
  sync := by decide
  lwsync := by decide
  eieio := by decide
  rf_com := by decide
  rfe_hb := by decide
  fences_hb := by decide

/-- The events that the store before the sync propagates to. -/
def behindSync : List IID := [⟨1, 2⟩, ⟨0, 1⟩, ⟨0, 2⟩, ⟨0, 3⟩]

/-- The sync is the only fence, com ends behind it, and hb stays behind it. -/
theorem overlappingLoads_after {a b : IID}
    (h : (recorded overlappingLoads_ready).After (recorded overlappingLoads_ready).hb a b) :
    a = ⟨1, 1⟩ ∧ b ∈ behindSync := by
  have hfences : ∀ x ∈ overlappingLoads.fetched, ∀ y ∈ overlappingLoads.fetched,
      overlappingLoads.Fence x y → x = ⟨1, 1⟩ ∧ y = ⟨1, 2⟩ := by decide
  have hcom : ∀ x ∈ overlappingLoads.fetched,
      ⟨1, 1⟩ ∉ (overlappingLoads.getEvt x).rel.com.fwd := by decide
  have hhb : ∀ x ∈ behindSync, ∀ y ∈ (overlappingLoads.getEvt x).rel.hb.fwd.vec,
      y ∈ behindSync := by decide
  obtain ⟨x, y, hax, hxy, hyb⟩ := h
  obtain ⟨rfl, rfl⟩ := hfences x hxy.1.1 y hxy.2.1.1 hxy.2.2
  constructor
  · rcases hax.cases_tail with heq | ⟨c, -, hc⟩
    · exact heq.symm
    · exact absurd hc.2.2 (hcom c hc.1.1)
  · clear hxy
    induction hyb with
    | refl => decide
    | tail _ hbc ih => exact hhb _ ih _ hbc.2.2

theorem overlappingLoads_exact (a b : IID) :
    overlappingLoads.RecordedIn Relations.prop a b ↔
      (recorded overlappingLoads_ready).Propagates a b := by
  have hrec : ∀ x ∈ overlappingLoads.fetched, ∀ y ∈ (overlappingLoads.getEvt x).rel.prop.fwd.vec,
      x = ⟨1, 1⟩ ∧ y ∈ behindSync := by decide
  have hprop : ∀ y ∈ behindSync, overlappingLoads.RecordedIn Relations.prop ⟨1, 1⟩ y := by
    decide
  constructor
  · intro h
    obtain ⟨rfl, hb⟩ := hrec a h.1.1 b h.2.2
    have hsync : (recorded overlappingLoads_ready).ffence ⟨1, 1⟩ ⟨1, 2⟩ :=
      ⟨by decide, by decide, by decide⟩
    have hread : (recorded overlappingLoads_ready).hb ⟨1, 2⟩ ⟨0, 1⟩ :=
      ⟨by decide, by decide, by decide⟩
    have hstore : (recorded overlappingLoads_ready).hb ⟨0, 1⟩ ⟨0, 2⟩ :=
      ⟨by decide, by decide, by decide⟩
    have hload : (recorded overlappingLoads_ready).hb ⟨0, 1⟩ ⟨0, 3⟩ :=
      ⟨by decide, by decide, by decide⟩
    refine Or.inr ⟨⟨1, 1⟩, ⟨1, 1⟩, ⟨1, 2⟩, .refl, .refl, hsync, ?_⟩
    simp only [behindSync, List.mem_cons, List.not_mem_nil, or_false] at hb
    rcases hb with rfl | rfl | rfl | rfl
    · exact .refl
    · exact .single hread
    · exact .tail (.single hread) hstore
    · exact .tail (.single hread) hload
  · intro h
    have hafter : (recorded overlappingLoads_ready).After
        (recorded overlappingLoads_ready).hb a b := by
      rcases h with ⟨-, -, hbase⟩ | hstrong
      · exact hbase.after
      · exact hstrong.after
    obtain ⟨rfl, hb⟩ := overlappingLoads_after hafter
    exact hprop b hb

end TB

end ViEqui.Power
