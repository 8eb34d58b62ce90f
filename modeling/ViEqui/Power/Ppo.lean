import ViEqui.Power.Structure
import ViEqui.Lib.Worklist
import Mathlib.Data.List.ProdSigma

/-!
# Preserved program order

`ppo_to_hb` extends preserved program order by a new event.  Each event has an
initiation point and a commit point, and the dependencies ii0, ci0 and cc0 are
edges between such points.  Two coloured searches, backwards and forwards from
the new event, find the pairs of hb that go through it (`mem_ppoToHb`).  Neither
search comes back to the new event, so the result is exact where the commit
point of the new event does not reach its initiation point.
-/

namespace ViEqui.Power

open Relation Worklist

/-! ## The model -/

/-- The two points of an event. -/
inductive Part where
  | I
  | C
deriving DecidableEq, Repr

/-- `VISITED_p_FROM_s`: the search from the point `src` of the new event has
visited the point `part`. -/
structure Visited where
  part : Part
  src : Part
deriving DecidableEq, Repr

namespace TB

/-- A mark at the point `p` is passed on to the same point. -/
def keep (p : Part) (m : Visited) : List Visited := if m.part = p then [m] else []

/-- A mark at the point `p` is passed on to both points. -/
def spread (p : Part) (m : Visited) : List Visited :=
  if m.part = p then [⟨.I, m.src⟩, ⟨.C, m.src⟩] else []

/-- Edges to the events of `S`. -/
def edgesTo {μ σ : Type} (rule : μ → List μ) (S : VecSet IID) : List (Edge IID μ σ) :=
  S.vec.map fun iid => { target := iid, rule }

/-- The edges of the search backwards. -/
def ppoBwd (tb : TB) (evt : IID) (rel : Relations) (e : IID) :
    List (Edge IID Visited ExtraHB) :=
  let R := tb.relOf evt rel e
  edgesTo (keep .I) R.ii0.bwd ++ edgesTo (spread .I) R.ci0.bwd ++ edgesTo (spread .C) R.cc0.bwd

def enterBwd (tb : TB) (evt : IID) (EHB : ExtraHB) (e : IID) (colour : List Visited) : ExtraHB :=
  if e ≠ evt ∧ (tb.getEvt e).hasLoad then
    if ⟨.I, .I⟩ ∈ colour then { EHB with I := EHB.I.insert e, C := EHB.C.insert e }
    else { EHB with C := EHB.C.insert e }
  else EHB

/-- The edges of the search forwards. -/
def ppoFwd (tb : TB) (evt : IID) (rel : Relations) (e : IID) :
    List (Edge IID Visited (ExtraHB × VecSet IID)) :=
  let R := tb.relOf evt rel e
  edgesTo (spread .I) R.ii0.fwd ++ edgesTo (spread .C) R.ci0.fwd ++ edgesTo (keep .C) R.cc0.fwd

def enterFwd (tb : TB) (evt : IID) (os : ExtraHB × VecSet IID) (e : IID)
    (colour : List Visited) : ExtraHB × VecSet IID :=
  let (EHB, fwd) := os
  if e = evt then os
  else if (tb.getEvt e).hasStore then
    (if ⟨.C, .C⟩ ∈ colour then
      { EHB with afterI := EHB.afterI.erase e, afterC := EHB.afterC.insert e }
    else { EHB with afterI := EHB.afterI.insert e },
    if (tb.getEvt evt).hasLoad then fwd.insert e else fwd)
  else
    (if ⟨.I, .C⟩ ∈ colour then
      { EHB with afterI := EHB.afterI.erase e, afterC := EHB.afterC.insert e }
    else if ⟨.I, .I⟩ ∈ colour then { EHB with afterI := EHB.afterI.insert e }
    else EHB,
    if (tb.getEvt evt).hasLoad ∧ (⟨.I, .I⟩ ∈ colour ∨ ⟨.I, .C⟩ ∈ colour) then fwd.insert e
    else fwd)

/-- Steps for the searches over the events: each mark is set once. -/
def ppoFuel (tb : TB) : Nat := 4 * tb.fetched.length + 1

/-- `ppo_to_hb`. -/
def ppoToHb (tb : TB) (evt : IID) (rel : Relations) : Relations × ExtraHB :=
  let EHB := (run (tb.ppoBwd evt rel) (tb.enterBwd evt) tb.ppoFuel
    ({}, ⟨[(evt, ⟨.I, .I⟩), (evt, ⟨.I, .C⟩), (evt, ⟨.C, .C⟩)], [evt]⟩)).1
  let bwd := rel.hb.bwd.insertAll (if (tb.getEvt evt).hasStore then EHB.C else EHB.I)
  let os := (run (tb.ppoFwd evt rel) (tb.enterFwd evt) tb.ppoFuel
    ((EHB, rel.hb.fwd), ⟨[(evt, ⟨.I, .I⟩), (evt, ⟨.C, .I⟩), (evt, ⟨.C, .C⟩)], [evt]⟩)).1
  ({ rel with hb := { fwd := os.2, bwd } }, os.1)

/-! ## Points and their reachability -/

/-- An edge between the points of two events. -/
inductive PointStep (tb : TB) (evt : IID) (rel : Relations) :
    Part × IID → Part × IID → Prop where
  | ic {e : IID} (h : tb.Present evt e) : PointStep tb evt rel (.I, e) (.C, e)
  | ii0 {a b : IID} (h : tb.Related evt rel Relations.ii0 a b) :
      PointStep tb evt rel (.I, a) (.I, b)
  | ci0 {a b : IID} (h : tb.Related evt rel Relations.ci0 a b) :
      PointStep tb evt rel (.C, a) (.I, b)
  | cc0 {a b : IID} (h : tb.Related evt rel Relations.cc0 a b) :
      PointStep tb evt rel (.C, a) (.C, b)

/-- Reachability between points. -/
abbrev Reaches (tb : TB) (evt : IID) (rel : Relations) : Part × IID → Part × IID → Prop :=
  ReflTransGen (tb.PointStep evt rel)

/-- The point of `y` at which hb ends. -/
def hbPart (tb : TB) (y : IID) : Part := if (tb.getEvt y).hasStore then .C else .I

/-- `x` and `y` are ordered by a path through the new event. -/
structure Ppo (tb : TB) (evt : IID) (rel : Relations) (x y : IID) : Prop where
  ne : ¬ (x = evt ∧ y = evt)
  hasLoad : (tb.getEvt x).hasLoad = true
  path : ∃ p, tb.Reaches evt rel (.I, x) (p, evt) ∧ tb.Reaches evt rel (p, evt) (tb.hbPart y, y)

/-- What the searches rely on: the dependencies are recorded in both directions
among the committed events, and those of the new event are committed. -/
structure PpoReady (tb : TB) (evt : IID) (rel : Relations) : Prop where
  new : tb.New evt
  ii0 : tb.Mutual Relations.ii0
  ci0 : tb.Mutual Relations.ci0
  cc0 : tb.Mutual Relations.cc0
  relIi0 : tb.Among rel.ii0
  relCi0 : tb.Among rel.ci0
  relCc0 : tb.Among rel.cc0

variable {tb : TB} {evt : IID} {rel : Relations}

@[simp] theorem mem_keep {p : Part} {m m' : Visited} : m' ∈ keep p m ↔ m.part = p ∧ m' = m := by
  unfold keep
  split_ifs with h
  · simp [h]
  · simp [h]

@[simp] theorem mem_spread {p : Part} {m m' : Visited} :
    m' ∈ spread p m ↔ m.part = p ∧ m'.src = m.src := by
  unfold spread
  obtain ⟨q, s⟩ := m'
  split_ifs with h
  · cases q <;> simp [h]
  · simp [h]

theorem mem_edgesTo {μ σ : Type} {rule : μ → List μ} {S : VecSet IID} {ed : Edge IID μ σ} :
    ed ∈ edgesTo rule S ↔ ∃ iid ∈ S, ed = { target := iid, rule } := by
  unfold edgesTo
  rw [List.mem_map]
  exact ⟨fun ⟨iid, h, heq⟩ => ⟨iid, h, heq.symm⟩, fun ⟨iid, h, heq⟩ => ⟨iid, h, heq.symm⟩⟩

/-! ## The search backwards -/

theorem gives_ppoBwd {x y : IID × Visited} :
    Gives (tb.ppoBwd evt rel) x y ↔
      y.1 ∈ (tb.relOf evt rel x.1).ii0.bwd ∧ x.2.part = .I ∧ y.2 = x.2 ∨
      y.1 ∈ (tb.relOf evt rel x.1).ci0.bwd ∧ x.2.part = .I ∧ y.2.src = x.2.src ∨
      y.1 ∈ (tb.relOf evt rel x.1).cc0.bwd ∧ x.2.part = .C ∧ y.2.src = x.2.src := by
  unfold Gives ppoBwd
  simp only [List.mem_append, mem_edgesTo]
  constructor
  · rintro ⟨ed, (⟨a, ha, rfl⟩ | ⟨a, ha, rfl⟩) | ⟨a, ha, rfl⟩, rfl, hrule⟩
    · exact Or.inl ⟨ha, mem_keep.mp hrule⟩
    · exact Or.inr (Or.inl ⟨ha, mem_spread.mp hrule⟩)
    · exact Or.inr (Or.inr ⟨ha, mem_spread.mp hrule⟩)
  · rintro (⟨ha, hrule⟩ | ⟨ha, hrule⟩ | ⟨ha, hrule⟩)
    · exact ⟨_, Or.inl (Or.inl ⟨y.1, ha, rfl⟩), rfl, mem_keep.mpr hrule⟩
    · exact ⟨_, Or.inl (Or.inr ⟨y.1, ha, rfl⟩), rfl, mem_spread.mpr hrule⟩
    · exact ⟨_, Or.inr ⟨y.1, ha, rfl⟩, rfl, mem_spread.mpr hrule⟩

/-- The marks of the new event at the start of the search backwards. -/
def firstBwd (evt : IID) : List (IID × Visited) :=
  [(evt, ⟨.I, .I⟩), (evt, ⟨.I, .C⟩), (evt, ⟨.C, .C⟩)]

/-- The marks that the search backwards sets. -/
def BwdMark (tb : TB) (evt : IID) (rel : Relations) (x : IID × Visited) : Prop :=
  ∃ y ∈ firstBwd evt, ReflTransGen (Gives (tb.ppoBwd evt rel)) y x

/-- A step of the search backwards goes along an edge, and not to the new
event. -/
theorem PpoReady.gives_bwd (h : tb.PpoReady evt rel) {x y : IID × Visited}
    (hx : tb.Present evt x.1) (hxy : Gives (tb.ppoBwd evt rel) x y) :
    tb.Committed y.1 ∧ y.2.src = x.2.src ∧
      tb.Reaches evt rel (y.2.part, y.1) (x.2.part, x.1) := by
  rcases gives_ppoBwd.mp hxy with ⟨hmem, hpart, heq⟩ | ⟨hmem, hpart, heq⟩ | ⟨hmem, hpart, heq⟩
  · obtain ⟨hy, hrel⟩ := mem_relOf_bwd h.new h.ii0 h.relIi0 hx hmem
    rw [heq, hpart]
    exact ⟨hy, rfl, .single (.ii0 hrel)⟩
  · obtain ⟨hy, hrel⟩ := mem_relOf_bwd h.new h.ci0 h.relCi0 hx hmem
    refine ⟨hy, heq, ?_⟩
    rw [hpart]
    cases y.2.part with
    | I => exact .head (.ic (Or.inr hy)) (.single (.ci0 hrel))
    | C => exact .single (.ci0 hrel)
  · obtain ⟨hy, hrel⟩ := mem_relOf_bwd h.new h.cc0 h.relCc0 hx hmem
    refine ⟨hy, heq, ?_⟩
    rw [hpart]
    cases y.2.part with
    | I => exact .head (.ic (Or.inr hy)) (.single (.cc0 hrel))
    | C => exact .single (.cc0 hrel)

theorem PpoReady.bwdMark_sound (h : tb.PpoReady evt rel) {x : IID × Visited}
    (hx : tb.BwdMark evt rel x) :
    tb.Present evt x.1 ∧ tb.Reaches evt rel (x.2.part, x.1) (x.2.src, evt) := by
  obtain ⟨y, hy, hpath⟩ := hx
  induction hpath with
  | refl =>
    simp only [firstBwd, List.mem_cons, List.not_mem_nil, or_false] at hy
    rcases hy with rfl | rfl | rfl
    · exact ⟨Or.inl rfl, .refl⟩
    · exact ⟨Or.inl rfl, .single (.ic (Or.inl rfl))⟩
    · exact ⟨Or.inl rfl, .refl⟩
  | tail _ hstep ih =>
    obtain ⟨hpresent, hreach⟩ := ih
    obtain ⟨hy, hsrc, hedge⟩ := h.gives_bwd hpresent hstep
    rw [hsrc]
    exact ⟨Or.inr hy, hedge.trans hreach⟩

/-- With the commit point of an event its initiation point is visited. -/
theorem BwdMark.initiation {e : IID} {s : Part} (h : tb.BwdMark evt rel (e, ⟨.C, s⟩)) :
    tb.BwdMark evt rel (e, ⟨.I, s⟩) := by
  obtain ⟨y, hy, hpath⟩ := h
  rcases hpath.cases_tail with heq | ⟨z, hz, hstep⟩
  · simp only [firstBwd, List.mem_cons, List.not_mem_nil, or_false] at hy
    rw [← heq] at hy
    simp only [Prod.mk.injEq, Visited.mk.injEq, reduceCtorEq, false_and, and_false, true_and,
      false_or] at hy
    rw [hy.1, hy.2]
    exact ⟨_, by simp [firstBwd], .refl⟩
  · refine ⟨y, hy, hz.tail (gives_ppoBwd.mpr ?_)⟩
    rcases gives_ppoBwd.mp hstep with ⟨hmem, hpart, heq⟩ | hcase | hcase
    · rw [← heq] at hpart
      exact absurd hpart (by simp)
    · exact Or.inr (Or.inl hcase)
    · exact Or.inr (Or.inr hcase)

theorem bwdMark_evt {p s : Part} (hacyc : ¬ tb.Reaches evt rel (.C, evt) (.I, evt))
    (h : tb.Reaches evt rel (p, evt) (s, evt)) : tb.BwdMark evt rel (evt, ⟨p, s⟩) := by
  have hmem : (evt, (⟨p, s⟩ : Visited)) ∈ firstBwd evt := by
    cases p with
    | I => cases s <;> simp [firstBwd]
    | C =>
      cases s with
      | I => exact absurd h hacyc
      | C => simp [firstBwd]
  exact ⟨_, hmem, .refl⟩

theorem PpoReady.bwdMark_complete (h : tb.PpoReady evt rel)
    (hacyc : ¬ tb.Reaches evt rel (.C, evt) (.I, evt)) {x : Part × IID} {s : Part}
    (hpath : tb.Reaches evt rel x (s, evt)) : tb.BwdMark evt rel (x.2, ⟨x.1, s⟩) := by
  induction hpath using ReflTransGen.head_induction_on with
  | refl => exact bwdMark_evt hacyc .refl
  | @head a b hstep hrest ih =>
    have hmark (hgives : Gives (tb.ppoBwd evt rel) (b.2, ⟨b.1, s⟩) (a.2, ⟨a.1, s⟩)) :
        tb.BwdMark evt rel (a.2, ⟨a.1, s⟩) := by
      obtain ⟨y, hy, hyb⟩ := ih
      exact ⟨y, hy, hyb.tail hgives⟩
    have hevt (heq : a.2 = evt) : tb.BwdMark evt rel (a.2, ⟨a.1, s⟩) := by
      have hfull := ReflTransGen.head hstep hrest
      rw [show a = (a.1, evt) from Prod.ext rfl heq] at hfull
      rw [heq]
      exact bwdMark_evt hacyc hfull
    cases hstep with
    | ic _ => exact ih.initiation
    | ii0 hrel =>
      rcases hrel.bwd h.new h.ii0 with hmem | ⟨heq, -⟩
      · exact hmark (gives_ppoBwd.mpr (Or.inl ⟨hmem, rfl, rfl⟩))
      · exact hevt heq
    | ci0 hrel =>
      rcases hrel.bwd h.new h.ci0 with hmem | ⟨heq, -⟩
      · exact hmark (gives_ppoBwd.mpr (Or.inr (Or.inl ⟨hmem, rfl, rfl⟩)))
      · exact hevt heq
    | cc0 hrel =>
      rcases hrel.bwd h.new h.cc0 with hmem | ⟨heq, -⟩
      · exact hmark (gives_ppoBwd.mpr (Or.inr (Or.inr ⟨hmem, rfl, rfl⟩)))
      · exact hevt heq

/-- The marks that the searches can set. -/
def ppoUniv (tb : TB) (evt : IID) : List (IID × Visited) :=
  tb.present evt ×ˢ [⟨.I, .I⟩, ⟨.I, .C⟩, ⟨.C, .I⟩, ⟨.C, .C⟩]

theorem mem_ppoUniv (h : tb.New evt) {x : IID × Visited} :
    x ∈ tb.ppoUniv evt ↔ tb.Present evt x.1 := by
  obtain ⟨e, p, s⟩ := x
  unfold ppoUniv
  rw [List.mem_product, h.present]
  cases p <;> cases s <;> simp

/-- There is fuel for each mark. -/
theorem ppoUniv_fuel {stack : List IID} {marks : List (IID × Visited)} (hstack : stack.length = 1) :
    stack.length + ((tb.ppoUniv evt).length - marks.length) ≤ tb.ppoFuel := by
  have hle : (tb.present evt).length ≤ tb.fetched.length := List.length_filter_le _ _
  unfold ppoUniv ppoFuel
  rw [List.length_product, hstack]
  simp only [List.length_cons, List.length_nil]
  omega

theorem PpoReady.bounded_bwd (h : tb.PpoReady evt rel) :
    Bounded (tb.ppoBwd evt rel) (tb.ppoUniv evt) ⟨firstBwd evt, [evt]⟩ where
  nodup := by simp [firstBwd]
  inside x hx := by
    simp only [firstBwd, List.mem_cons, List.not_mem_nil, or_false] at hx
    rcases hx with rfl | rfl | rfl <;> exact (mem_ppoUniv h.new).mpr (Or.inl rfl)
  closed x hx y hxy :=
    (mem_ppoUniv h.new).mpr (Or.inr (h.gives_bwd ((mem_ppoUniv h.new).mp hx) hxy).1)

/-- What the search backwards has entered for an event with the marks `c`. -/
structure FitsBwd (tb : TB) (evt : IID) (EHB : ExtraHB) (e : IID) (c : Set Visited) : Prop where
  I : e ∈ EHB.I ↔ e ≠ evt ∧ (tb.getEvt e).hasLoad = true ∧ ⟨.I, .I⟩ ∈ c
  C : e ∈ EHB.C ↔ e ≠ evt ∧ (tb.getEvt e).hasLoad = true ∧ c.Nonempty
  afterI : EHB.afterI = ∅
  afterC : EHB.afterC = ∅

/-- Nothing is entered for an event without marks. -/
theorem FitsBwd.empty (e : IID) : FitsBwd tb evt {} e ∅ where
  I := by simp
  C := by simp
  afterI := rfl
  afterC := rfl

theorem FitsBwd.enter {EHB : ExtraHB} {e : IID} {c' : Set Visited} {c : List Visited} (hne : c ≠ [])
    (h : FitsBwd tb evt EHB e c') (hsub : c' ⊆ {m | m ∈ c}) :
    FitsBwd tb evt (tb.enterBwd evt EHB e c) e {m | m ∈ c} := by
  obtain ⟨m, hm⟩ := List.exists_mem_of_ne_nil c hne
  have hnonempty : {m | m ∈ c}.Nonempty := ⟨m, hm⟩
  unfold enterBwd
  split_ifs with hload hmark
  · exact ⟨by simp [hload, hmark], by simp [hload, hnonempty], h.afterI, h.afterC⟩
  · refine ⟨?_, by simp [hload, hnonempty], h.afterI, h.afterC⟩
    constructor
    · intro hI
      exact absurd (hsub (h.I.mp hI).2.2) hmark
    · rintro ⟨-, -, hI⟩
      exact absurd hI hmark
  · have hno : ¬ (e ≠ evt ∧ (tb.getEvt e).hasLoad = true) := hload
    refine ⟨?_, ?_, h.afterI, h.afterC⟩
    · rw [h.I]
      tauto
    · rw [h.C]
      tauto

theorem FitsBwd.frame {EHB : ExtraHB} {e x : IID} {c : List Visited} {c' : Set Visited}
    (hne : x ≠ e) (h : FitsBwd tb evt EHB x c') :
    FitsBwd tb evt (tb.enterBwd evt EHB e c) x c' := by
  unfold enterBwd
  split_ifs with hload hmark
  · exact ⟨by simpa [hne] using h.I, by simpa [hne] using h.C, h.afterI, h.afterC⟩
  · exact ⟨h.I, by simpa [hne] using h.C, h.afterI, h.afterC⟩
  · exact h

/-- The extra edges that the search backwards finds. -/
def ppoBefore (tb : TB) (evt : IID) (rel : Relations) : ExtraHB :=
  (run (tb.ppoBwd evt rel) (tb.enterBwd evt) tb.ppoFuel ({}, ⟨firstBwd evt, [evt]⟩)).1

/-- What is recorded at the start of a search fits: only the new event has
marks, and it waits on the stack. -/
theorem recorded_first {σ : Type} {Fits : σ → IID → Set Visited → Prop} {o : σ}
    {marks : List (IID × Visited)} (hempty : ∀ e, Fits o e ∅) (hevt : ∃ m, (evt, m) ∈ marks)
    (honly : ∀ x ∈ marks, x.1 = evt) : Recorded Fits o ⟨marks, [evt]⟩ where
  fits x := by
    refine ⟨∅, Set.empty_subset _, hempty x, ?_⟩
    by_cases hx : x = evt
    · exact Or.inl (List.mem_singleton.mpr hx)
    · refine Or.inr (Set.eq_empty_iff_forall_notMem.mpr fun m hm => ?_).symm
      exact hx (honly (x, m) hm)
  marked x hx := by
    rw [List.mem_singleton.mp hx]
    exact hevt

theorem pending_first {σ : Type} {succ : IID → List (Edge IID Visited σ)}
    {marks : List (IID × Visited)} (honly : ∀ x ∈ marks, x.1 = evt) :
    Pending succ ⟨marks, [evt]⟩ := fun x hx => Or.inl (List.mem_singleton.mpr (honly x hx))

theorem firstBwd_only : ∀ x ∈ firstBwd evt, x.1 = evt := by simp [firstBwd]

theorem PpoReady.fits_before (h : tb.PpoReady evt rel) (x : IID) :
    FitsBwd tb evt (tb.ppoBefore evt rel) x {m | tb.BwdMark evt rel (x, m)} := by
  have hfits := run_recorded (tb.ppoBwd evt rel) (tb.enterBwd evt)
    (FitsBwd tb evt) (fun o e c' c => FitsBwd.enter) (fun o e c x c' => FitsBwd.frame)
    (fun e ed hed o old new x c' hfits => by
      unfold ppoBwd at hed
      simp only [List.mem_append, mem_edgesTo] at hed
      rcases hed with (⟨a, -, rfl⟩ | ⟨a, -, rfl⟩) | ⟨a, -, rfl⟩ <;> exact hfits)
    tb.ppoFuel ({}, ⟨firstBwd evt, [evt]⟩) h.bounded_bwd (ppoUniv_fuel rfl)
    (recorded_first FitsBwd.empty ⟨⟨.I, .I⟩, by simp [firstBwd]⟩ firstBwd_only) x
  have hmarks := run_marks (tb.enterBwd evt) tb.ppoFuel ({}, ⟨firstBwd evt, [evt]⟩)
    h.bounded_bwd (ppoUniv_fuel rfl) (pending_first firstBwd_only)
  rw [show State.marksOf _ x = {m | tb.BwdMark evt rel (x, m)} from
    Set.ext fun m => hmarks (x, m)] at hfits
  exact hfits

/-- The sets `I` and `C` are the loads whose initiation points reach the points
of the new event. -/
theorem PpoReady.mem_before (h : tb.PpoReady evt rel)
    (hacyc : ¬ tb.Reaches evt rel (.C, evt) (.I, evt)) {x : IID} :
    (x ∈ (tb.ppoBefore evt rel).I ↔ x ≠ evt ∧ (tb.getEvt x).hasLoad = true ∧
      tb.Reaches evt rel (.I, x) (.I, evt)) ∧
    (x ∈ (tb.ppoBefore evt rel).C ↔ x ≠ evt ∧ (tb.getEvt x).hasLoad = true ∧
      tb.Reaches evt rel (.I, x) (.C, evt)) := by
  have hfits := h.fits_before x
  have hcommit : tb.Reaches evt rel (.I, evt) (.C, evt) := .single (.ic (Or.inl rfl))
  rw [hfits.I, hfits.C]
  constructor
  · refine and_congr_right fun _ => and_congr_right fun _ => ?_
    exact ⟨fun hm => (h.bwdMark_sound hm).2, fun hpath => h.bwdMark_complete hacyc hpath⟩
  · refine and_congr_right fun _ => and_congr_right fun _ => ?_
    constructor
    · rintro ⟨⟨p, s⟩, hm⟩
      obtain ⟨hpresent, hpath⟩ := h.bwdMark_sound hm
      have hhead : tb.Reaches evt rel (.I, x) (p, x) := by
        cases p with
        | I => exact .refl
        | C => exact .single (.ic hpresent)
      cases s with
      | I => exact (hhead.trans hpath).trans hcommit
      | C => exact hhead.trans hpath
    · intro hpath
      exact ⟨⟨.I, .C⟩, h.bwdMark_complete hacyc hpath⟩

/-! ## The search forwards -/

theorem gives_ppoFwd {x y : IID × Visited} :
    Gives (tb.ppoFwd evt rel) x y ↔
      y.1 ∈ (tb.relOf evt rel x.1).ii0.fwd ∧ x.2.part = .I ∧ y.2.src = x.2.src ∨
      y.1 ∈ (tb.relOf evt rel x.1).ci0.fwd ∧ x.2.part = .C ∧ y.2.src = x.2.src ∨
      y.1 ∈ (tb.relOf evt rel x.1).cc0.fwd ∧ x.2.part = .C ∧ y.2 = x.2 := by
  unfold Gives ppoFwd
  simp only [List.mem_append, mem_edgesTo]
  constructor
  · rintro ⟨ed, (⟨a, ha, rfl⟩ | ⟨a, ha, rfl⟩) | ⟨a, ha, rfl⟩, rfl, hrule⟩
    · exact Or.inl ⟨ha, mem_spread.mp hrule⟩
    · exact Or.inr (Or.inl ⟨ha, mem_spread.mp hrule⟩)
    · exact Or.inr (Or.inr ⟨ha, mem_keep.mp hrule⟩)
  · rintro (⟨ha, hrule⟩ | ⟨ha, hrule⟩ | ⟨ha, hrule⟩)
    · exact ⟨_, Or.inl (Or.inl ⟨y.1, ha, rfl⟩), rfl, mem_spread.mpr hrule⟩
    · exact ⟨_, Or.inl (Or.inr ⟨y.1, ha, rfl⟩), rfl, mem_spread.mpr hrule⟩
    · exact ⟨_, Or.inr ⟨y.1, ha, rfl⟩, rfl, mem_keep.mpr hrule⟩

/-- The marks of the new event at the start of the search forwards. -/
def firstFwd (evt : IID) : List (IID × Visited) :=
  [(evt, ⟨.I, .I⟩), (evt, ⟨.C, .I⟩), (evt, ⟨.C, .C⟩)]

/-- The marks that the search forwards sets. -/
def FwdMark (tb : TB) (evt : IID) (rel : Relations) (x : IID × Visited) : Prop :=
  ∃ y ∈ firstFwd evt, ReflTransGen (Gives (tb.ppoFwd evt rel)) y x

theorem PpoReady.gives_fwd (h : tb.PpoReady evt rel) {x y : IID × Visited}
    (hx : tb.Present evt x.1) (hxy : Gives (tb.ppoFwd evt rel) x y) :
    tb.Committed y.1 ∧ y.2.src = x.2.src ∧
      tb.Reaches evt rel (x.2.part, x.1) (y.2.part, y.1) := by
  rcases gives_ppoFwd.mp hxy with ⟨hmem, hpart, heq⟩ | ⟨hmem, hpart, heq⟩ | ⟨hmem, hpart, heq⟩
  · obtain ⟨hy, hrel⟩ := mem_relOf_fwd h.new h.ii0 h.relIi0 hx hmem
    refine ⟨hy, heq, ?_⟩
    rw [hpart]
    cases y.2.part with
    | I => exact .single (.ii0 hrel)
    | C => exact .tail (.single (.ii0 hrel)) (.ic (Or.inr hy))
  · obtain ⟨hy, hrel⟩ := mem_relOf_fwd h.new h.ci0 h.relCi0 hx hmem
    refine ⟨hy, heq, ?_⟩
    rw [hpart]
    cases y.2.part with
    | I => exact .single (.ci0 hrel)
    | C => exact .tail (.single (.ci0 hrel)) (.ic (Or.inr hy))
  · obtain ⟨hy, hrel⟩ := mem_relOf_fwd h.new h.cc0 h.relCc0 hx hmem
    rw [heq, hpart]
    exact ⟨hy, rfl, .single (.cc0 hrel)⟩

theorem PpoReady.fwdMark_sound (h : tb.PpoReady evt rel) {x : IID × Visited}
    (hx : tb.FwdMark evt rel x) :
    tb.Present evt x.1 ∧ tb.Reaches evt rel (x.2.src, evt) (x.2.part, x.1) := by
  obtain ⟨y, hy, hpath⟩ := hx
  induction hpath with
  | refl =>
    simp only [firstFwd, List.mem_cons, List.not_mem_nil, or_false] at hy
    rcases hy with rfl | rfl | rfl
    · exact ⟨Or.inl rfl, .refl⟩
    · exact ⟨Or.inl rfl, .single (.ic (Or.inl rfl))⟩
    · exact ⟨Or.inl rfl, .refl⟩
  | tail _ hstep ih =>
    obtain ⟨hpresent, hreach⟩ := ih
    obtain ⟨hy, hsrc, hedge⟩ := h.gives_fwd hpresent hstep
    rw [hsrc]
    exact ⟨Or.inr hy, hreach.trans hedge⟩

/-- With the initiation point of an event its commit point is visited. -/
theorem FwdMark.commit {e : IID} {s : Part} (h : tb.FwdMark evt rel (e, ⟨.I, s⟩)) :
    tb.FwdMark evt rel (e, ⟨.C, s⟩) := by
  obtain ⟨y, hy, hpath⟩ := h
  rcases hpath.cases_tail with heq | ⟨z, hz, hstep⟩
  · simp only [firstFwd, List.mem_cons, List.not_mem_nil, or_false] at hy
    rw [← heq] at hy
    simp only [Prod.mk.injEq, Visited.mk.injEq, reduceCtorEq, false_and, and_false, true_and,
      or_false] at hy
    rw [hy.1, hy.2]
    exact ⟨_, by simp [firstFwd], .refl⟩
  · refine ⟨y, hy, hz.tail (gives_ppoFwd.mpr ?_)⟩
    rcases gives_ppoFwd.mp hstep with hcase | hcase | ⟨hmem, hpart, heq⟩
    · exact Or.inl hcase
    · exact Or.inr (Or.inl hcase)
    · rw [← heq] at hpart
      exact absurd hpart (by simp)

theorem fwdMark_evt {p s : Part} (hacyc : ¬ tb.Reaches evt rel (.C, evt) (.I, evt))
    (h : tb.Reaches evt rel (s, evt) (p, evt)) : tb.FwdMark evt rel (evt, ⟨p, s⟩) := by
  have hmem : (evt, (⟨p, s⟩ : Visited)) ∈ firstFwd evt := by
    cases p with
    | I =>
      cases s with
      | I => simp [firstFwd]
      | C => exact absurd h hacyc
    | C => cases s <;> simp [firstFwd]
  exact ⟨_, hmem, .refl⟩

theorem PpoReady.fwdMark_complete (h : tb.PpoReady evt rel)
    (hacyc : ¬ tb.Reaches evt rel (.C, evt) (.I, evt)) {x : Part × IID} {s : Part}
    (hpath : tb.Reaches evt rel (s, evt) x) : tb.FwdMark evt rel (x.2, ⟨x.1, s⟩) := by
  induction hpath with
  | refl => exact fwdMark_evt hacyc .refl
  | @tail a b hrest hstep ih =>
    have hmark (hgives : Gives (tb.ppoFwd evt rel) (a.2, ⟨a.1, s⟩) (b.2, ⟨b.1, s⟩)) :
        tb.FwdMark evt rel (b.2, ⟨b.1, s⟩) := by
      obtain ⟨y, hy, hya⟩ := ih
      exact ⟨y, hy, hya.tail hgives⟩
    have hevt (heq : b.2 = evt) : tb.FwdMark evt rel (b.2, ⟨b.1, s⟩) := by
      have hfull := hrest.tail hstep
      rw [show b = (b.1, evt) from Prod.ext rfl heq] at hfull
      rw [heq]
      exact fwdMark_evt hacyc hfull
    cases hstep with
    | ic _ => exact ih.commit
    | ii0 hrel =>
      rcases hrel.fwd h.new with hmem | ⟨heq, -⟩
      · exact hmark (gives_ppoFwd.mpr (Or.inl ⟨hmem, rfl, rfl⟩))
      · exact hevt heq
    | ci0 hrel =>
      rcases hrel.fwd h.new with hmem | ⟨heq, -⟩
      · exact hmark (gives_ppoFwd.mpr (Or.inr (Or.inl ⟨hmem, rfl, rfl⟩)))
      · exact hevt heq
    | cc0 hrel =>
      rcases hrel.fwd h.new with hmem | ⟨heq, -⟩
      · exact hmark (gives_ppoFwd.mpr (Or.inr (Or.inr ⟨hmem, rfl, rfl⟩)))
      · exact hevt heq

theorem PpoReady.bounded_fwd (h : tb.PpoReady evt rel) :
    Bounded (tb.ppoFwd evt rel) (tb.ppoUniv evt) ⟨firstFwd evt, [evt]⟩ where
  nodup := by simp [firstFwd]
  inside x hx := by
    simp only [firstFwd, List.mem_cons, List.not_mem_nil, or_false] at hx
    rcases hx with rfl | rfl | rfl <;> exact (mem_ppoUniv h.new).mpr (Or.inl rfl)
  closed x hx y hxy :=
    (mem_ppoUniv h.new).mpr (Or.inr (h.gives_fwd ((mem_ppoUniv h.new).mp hx) hxy).1)

/-- A mark of the point where hb ends, as the search sees it. -/
def Hit (tb : TB) (e : IID) (c : Set Visited) : Prop :=
  if (tb.getEvt e).hasStore then c.Nonempty else ⟨.I, .I⟩ ∈ c ∨ ⟨.I, .C⟩ ∈ c

/-- What the search forwards has entered for an event with the marks `c`. -/
structure FitsFwd (tb : TB) (evt : IID) (before : ExtraHB) (fwd : VecSet IID)
    (os : ExtraHB × VecSet IID) (e : IID) (c : Set Visited) : Prop where
  I : os.1.I = before.I
  C : os.1.C = before.C
  afterC : e ∈ os.1.afterC ↔ e ≠ evt ∧ ⟨tb.hbPart e, .C⟩ ∈ c
  afterI : e ∈ os.1.afterI ↔ e ≠ evt ∧ ⟨tb.hbPart e, .C⟩ ∉ c ∧ tb.Hit e c
  fwd : e ∈ os.2 ↔ e ∈ fwd ∨ e ≠ evt ∧ (tb.getEvt evt).hasLoad = true ∧ tb.Hit e c

theorem not_hit_empty {e : IID} : ¬ tb.Hit e ∅ := by
  unfold Hit
  split_ifs <;> simp

theorem FitsFwd.empty {before : ExtraHB} (hI : before.afterI = ∅) (hC : before.afterC = ∅)
    (fwd : VecSet IID) (e : IID) : FitsFwd tb evt before fwd (before, fwd) e ∅ where
  I := rfl
  C := rfl
  afterC := by simp [hC]
  afterI := by simp [hI, not_hit_empty]
  fwd := by simp [not_hit_empty]

/-- The extra edges after a visit of `e`. -/
theorem enterFwd_extra (EHB : ExtraHB) (fwd : VecSet IID) {e : IID} {c : List Visited}
    (hne : c ≠ []) (hevt : e ≠ evt) :
    ⟨tb.hbPart e, .C⟩ ∈ c ∧ (tb.enterFwd evt (EHB, fwd) e c).1 =
        { EHB with afterI := EHB.afterI.erase e, afterC := EHB.afterC.insert e } ∨
      ⟨tb.hbPart e, .C⟩ ∉ c ∧ tb.Hit e {m | m ∈ c} ∧ (tb.enterFwd evt (EHB, fwd) e c).1 =
        { EHB with afterI := EHB.afterI.insert e } ∨
      ⟨tb.hbPart e, .C⟩ ∉ c ∧ ¬ tb.Hit e {m | m ∈ c} ∧
        (tb.enterFwd evt (EHB, fwd) e c).1 = EHB := by
  obtain ⟨m, hm⟩ := List.exists_mem_of_ne_nil c hne
  unfold enterFwd Hit hbPart
  dsimp only
  rw [if_neg hevt]
  by_cases hstore : (tb.getEvt e).hasStore = true
  · simp only [if_pos hstore]
    by_cases hC : ⟨.C, .C⟩ ∈ c
    · exact Or.inl ⟨hC, if_pos hC⟩
    · exact Or.inr (Or.inl ⟨hC, ⟨m, hm⟩, if_neg hC⟩)
  · simp only [if_neg hstore]
    by_cases hC : ⟨.I, .C⟩ ∈ c
    · exact Or.inl ⟨hC, if_pos hC⟩
    · by_cases hI : ⟨.I, .I⟩ ∈ c
      · exact Or.inr (Or.inl ⟨hC, Or.inl hI, (if_neg hC).trans (if_pos hI)⟩)
      · exact Or.inr (Or.inr ⟨hC, fun h => h.elim hI hC, (if_neg hC).trans (if_neg hI)⟩)

/-- The edges from the new event after a visit of `e`. -/
theorem mem_enterFwd {EHB : ExtraHB} {fwd : VecSet IID} {e x : IID} {c : List Visited}
    (hne : c ≠ []) (hevt : e ≠ evt) :
    x ∈ (tb.enterFwd evt (EHB, fwd) e c).2 ↔
      x ∈ fwd ∨ x = e ∧ (tb.getEvt evt).hasLoad = true ∧ tb.Hit e {m | m ∈ c} := by
  obtain ⟨m, hm⟩ := List.exists_mem_of_ne_nil c hne
  have hnonempty : {m | m ∈ c}.Nonempty := ⟨m, hm⟩
  unfold enterFwd Hit
  dsimp only
  rw [if_neg hevt]
  by_cases hstore : (tb.getEvt e).hasStore = true
  · rw [if_pos hstore, if_pos hstore]
    dsimp only
    split_ifs with hload
    · rw [VecSet.mem_insert]
      tauto
    · tauto
  · rw [if_neg hstore, if_neg hstore]
    dsimp only
    split_ifs with hif
    · rw [VecSet.mem_insert]
      exact ⟨fun h => h.symm.imp_right fun h => ⟨h, hif⟩, fun h => h.symm.imp_left fun h => h.1⟩
    · exact ⟨Or.inl, fun h => h.resolve_right fun h => hif h.2⟩

theorem FitsFwd.enter {before : ExtraHB} {fwd : VecSet IID} {os : ExtraHB × VecSet IID} {e : IID}
    {c' : Set Visited} {c : List Visited} (hne : c ≠ [])
    (h : FitsFwd tb evt before fwd os e c') (hsub : c' ⊆ {m | m ∈ c}) :
    FitsFwd tb evt before fwd (tb.enterFwd evt os e c) e {m | m ∈ c} := by
  obtain ⟨EHB, hbFwd⟩ := os
  have hgrow : tb.Hit e c' → tb.Hit e {m | m ∈ c} := by
    unfold Hit
    split_ifs
    · exact fun hne => hne.mono hsub
    · exact Or.imp (fun hm => hsub hm) (fun hm => hsub hm)
  by_cases hevt : e = evt
  · rw [show tb.enterFwd evt (EHB, hbFwd) e c = (EHB, hbFwd) from if_pos hevt]
    exact ⟨h.I, h.C, by simpa [hevt] using h.afterC, by simpa [hevt] using h.afterI,
      by simpa [hevt] using h.fwd⟩
  · have hfwd : e ∈ (tb.enterFwd evt (EHB, hbFwd) e c).2 ↔
        e ∈ fwd ∨ e ≠ evt ∧ (tb.getEvt evt).hasLoad = true ∧ tb.Hit e {m | m ∈ c} := by
      have hold : e ∈ hbFwd ↔ _ := h.fwd
      rw [mem_enterFwd hne hevt, hold]
      tauto
    have hafterC : e ∈ EHB.afterC ↔ _ := h.afterC
    have hafterI : e ∈ EHB.afterI ↔ _ := h.afterI
    rcases enterFwd_extra EHB hbFwd hne hevt with
      ⟨hC, heq⟩ | ⟨hC, hhit, heq⟩ | ⟨hC, hhit, heq⟩
    · refine ⟨by rw [heq]; exact h.I, by rw [heq]; exact h.C, ?_, ?_, hfwd⟩
      · rw [heq]
        simp [hevt, hC]
      · rw [heq]
        simp [hC]
    · have hno : e ∉ EHB.afterC := fun he => hC (hsub (hafterC.mp he).2)
      refine ⟨by rw [heq]; exact h.I, by rw [heq]; exact h.C, ?_, ?_, hfwd⟩
      · rw [heq]
        simp [hno, hC]
      · rw [heq]
        simp [hevt, hC, hhit]
    · have hno : e ∉ EHB.afterC := fun he => hC (hsub (hafterC.mp he).2)
      have hnever : e ∉ EHB.afterI := fun he => hhit (hgrow (hafterI.mp he).2.2)
      refine ⟨by rw [heq]; exact h.I, by rw [heq]; exact h.C, ?_, ?_, hfwd⟩
      · rw [heq]
        simp [hno, hC]
      · rw [heq]
        simp [hnever, hhit]

theorem FitsFwd.frame {before : ExtraHB} {fwd : VecSet IID} {os : ExtraHB × VecSet IID} {e x : IID}
    {c : List Visited} {c' : Set Visited} (hne : x ≠ e) (h : FitsFwd tb evt before fwd os x c') :
    FitsFwd tb evt before fwd (tb.enterFwd evt os e c) x c' := by
  obtain ⟨EHB, hbFwd⟩ := os
  have hfwd (q : Prop) [Decidable q] : x ∈ (if q then hbFwd.insert e else hbFwd) ↔
      x ∈ fwd ∨ x ≠ evt ∧ (tb.getEvt evt).hasLoad = true ∧ tb.Hit x c' := by
    rw [← h.fwd]
    split_ifs <;> simp [hne]
  have hafterC := h.afterC
  have hafterI := h.afterI
  unfold enterFwd
  dsimp only at hafterC hafterI ⊢
  split_ifs <;>
    first
    | exact h
    | exact ⟨h.I, h.C, by simpa [hne] using hafterC, by simpa [hne] using hafterI, by
        simpa [hne] using h.fwd⟩

/-- The extra edges and the edges from the new event, as the search forwards
finds them. -/
def ppoAfter (tb : TB) (evt : IID) (rel : Relations) : ExtraHB × VecSet IID :=
  (run (tb.ppoFwd evt rel) (tb.enterFwd evt) tb.ppoFuel
    ((tb.ppoBefore evt rel, rel.hb.fwd), ⟨firstFwd evt, [evt]⟩)).1

theorem firstFwd_only : ∀ x ∈ firstFwd evt, x.1 = evt := by simp [firstFwd]

theorem PpoReady.fits_after (h : tb.PpoReady evt rel) (x : IID) :
    FitsFwd tb evt (tb.ppoBefore evt rel) rel.hb.fwd (tb.ppoAfter evt rel) x
      {m | tb.FwdMark evt rel (x, m)} := by
  have hbefore := h.fits_before x
  have hfits := run_recorded (tb.ppoFwd evt rel) (tb.enterFwd evt)
    (FitsFwd tb evt (tb.ppoBefore evt rel) rel.hb.fwd)
    (fun o e c' c => FitsFwd.enter) (fun o e c x c' => FitsFwd.frame)
    (fun e ed hed o old new x c' hfits => by
      unfold ppoFwd at hed
      simp only [List.mem_append, mem_edgesTo] at hed
      rcases hed with (⟨a, -, rfl⟩ | ⟨a, -, rfl⟩) | ⟨a, -, rfl⟩ <;> exact hfits)
    tb.ppoFuel ((tb.ppoBefore evt rel, rel.hb.fwd), ⟨firstFwd evt, [evt]⟩) h.bounded_fwd
    (ppoUniv_fuel rfl)
    (recorded_first (FitsFwd.empty hbefore.afterI hbefore.afterC _)
      ⟨⟨.I, .I⟩, by simp [firstFwd]⟩ firstFwd_only) x
  have hmarks := run_marks (tb.enterFwd evt) tb.ppoFuel
    ((tb.ppoBefore evt rel, rel.hb.fwd), ⟨firstFwd evt, [evt]⟩)
    h.bounded_fwd (ppoUniv_fuel rfl) (pending_first firstFwd_only)
  rw [show State.marksOf _ x = {m | tb.FwdMark evt rel (x, m)} from
    Set.ext fun m => hmarks (x, m)] at hfits
  exact hfits

/-! ## The result -/

/-- The search forwards has hit an event when the initiation point of the new
event reaches the point where hb ends. -/
theorem PpoReady.hit_iff (h : tb.PpoReady evt rel)
    (hacyc : ¬ tb.Reaches evt rel (.C, evt) (.I, evt)) {x : IID} :
    tb.Hit x {m | tb.FwdMark evt rel (x, m)} ↔ tb.Reaches evt rel (.I, evt) (tb.hbPart x, x) := by
  have hcommit : tb.Reaches evt rel (.I, evt) (.C, evt) := .single (.ic (Or.inl rfl))
  have hsrc {s p : Part} (hm : tb.FwdMark evt rel (x, ⟨p, s⟩)) :
      tb.Reaches evt rel (.I, evt) (p, x) := by
    have hpath := (h.fwdMark_sound hm).2
    cases s with
    | I => exact hpath
    | C => exact hcommit.trans hpath
  unfold Hit hbPart
  split_ifs with hstore
  · constructor
    · rintro ⟨⟨p, s⟩, hm⟩
      have hpath := hsrc hm
      cases p with
      | I => exact hpath.tail (.ic (h.fwdMark_sound hm).1)
      | C => exact hpath
    · intro hpath
      exact ⟨⟨.C, .I⟩, h.fwdMark_complete hacyc hpath⟩
  · constructor
    · rintro (hm | hm)
      · exact hsrc hm
      · exact hsrc hm
    · intro hpath
      exact Or.inl (h.fwdMark_complete hacyc hpath)

/-- The sets `afterI` and `afterC` are the events that the points of the new
event reach, and of the two the commit point counts. -/
theorem PpoReady.mem_after (h : tb.PpoReady evt rel)
    (hacyc : ¬ tb.Reaches evt rel (.C, evt) (.I, evt)) {x : IID} :
    (x ∈ (tb.ppoAfter evt rel).1.afterC ↔
      x ≠ evt ∧ tb.Reaches evt rel (.C, evt) (tb.hbPart x, x)) ∧
    (x ∈ (tb.ppoAfter evt rel).1.afterI ↔ x ≠ evt ∧
      ¬ tb.Reaches evt rel (.C, evt) (tb.hbPart x, x) ∧
      tb.Reaches evt rel (.I, evt) (tb.hbPart x, x)) ∧
    (x ∈ (tb.ppoAfter evt rel).2 ↔ x ∈ rel.hb.fwd ∨ x ≠ evt ∧
      (tb.getEvt evt).hasLoad = true ∧ tb.Reaches evt rel (.I, evt) (tb.hbPart x, x)) := by
  have hfits := h.fits_after x
  have hmark : tb.FwdMark evt rel (x, ⟨tb.hbPart x, .C⟩) ↔
      tb.Reaches evt rel (.C, evt) (tb.hbPart x, x) :=
    ⟨fun hm => (h.fwdMark_sound hm).2, fun hpath => h.fwdMark_complete hacyc hpath⟩
  rw [hfits.afterC, hfits.afterI, hfits.fwd, h.hit_iff hacyc, Set.mem_ofPred_eq, hmark]
  exact ⟨Iff.rfl, Iff.rfl, Iff.rfl⟩

/-- A pair that is ordered through the new event comes to one of its points, and
goes on from there. -/
theorem ppo_iff {x y : IID} : tb.Ppo evt rel x y ↔
    ¬ (x = evt ∧ y = evt) ∧ (tb.getEvt x).hasLoad = true ∧
      (tb.Reaches evt rel (.I, x) (.I, evt) ∧ tb.Reaches evt rel (.I, evt) (tb.hbPart y, y) ∨
        tb.Reaches evt rel (.I, x) (.C, evt) ∧
          tb.Reaches evt rel (.C, evt) (tb.hbPart y, y)) := by
  constructor
  · rintro ⟨hne, hload, p, hx, hy⟩
    cases p with
    | I => exact ⟨hne, hload, Or.inl ⟨hx, hy⟩⟩
    | C => exact ⟨hne, hload, Or.inr ⟨hx, hy⟩⟩
  · rintro ⟨hne, hload, ⟨hx, hy⟩ | ⟨hx, hy⟩⟩
    · exact ⟨hne, hload, .I, hx, hy⟩
    · exact ⟨hne, hload, .C, hx, hy⟩

/-- The edges to the new event. -/
theorem PpoReady.mem_bwd (h : tb.PpoReady evt rel)
    (hacyc : ¬ tb.Reaches evt rel (.C, evt) (.I, evt)) {x : IID} :
    x ∈ (if (tb.getEvt evt).hasStore then (tb.ppoBefore evt rel).C else (tb.ppoBefore evt rel).I) ↔
      tb.Ppo evt rel x evt := by
  have hcommit : tb.Reaches evt rel (.I, evt) (.C, evt) := .single (.ic (Or.inl rfl))
  obtain ⟨hI, hC⟩ := h.mem_before hacyc (x := x)
  rw [ppo_iff]
  unfold hbPart
  split_ifs with hstore
  · rw [hC]
    constructor
    · exact fun ⟨hne, hload, hpath⟩ => ⟨fun heq => hne heq.1, hload, Or.inr ⟨hpath, .refl⟩⟩
    · rintro ⟨hne, hload, ⟨hpath, -⟩ | ⟨hpath, -⟩⟩
      · exact ⟨fun heq => hne ⟨heq, rfl⟩, hload, hpath.trans hcommit⟩
      · exact ⟨fun heq => hne ⟨heq, rfl⟩, hload, hpath⟩
  · rw [hI]
    constructor
    · exact fun ⟨hne, hload, hpath⟩ => ⟨fun heq => hne heq.1, hload, Or.inl ⟨hpath, .refl⟩⟩
    · rintro ⟨hne, hload, ⟨hpath, -⟩ | ⟨-, hback⟩⟩
      · exact ⟨fun heq => hne ⟨heq, rfl⟩, hload, hpath⟩
      · exact absurd hback hacyc

/-- The extra edges are those between other events. -/
theorem PpoReady.mem_extra (h : tb.PpoReady evt rel)
    (hacyc : ¬ tb.Reaches evt rel (.C, evt) (.I, evt)) {x y : IID} :
    (x ∈ (tb.ppoBefore evt rel).I ∧ y ∈ (tb.ppoAfter evt rel).1.afterI ∨
        x ∈ (tb.ppoBefore evt rel).C ∧ y ∈ (tb.ppoAfter evt rel).1.afterC) ↔
      x ≠ evt ∧ y ≠ evt ∧ tb.Ppo evt rel x y := by
  have hcommit : tb.Reaches evt rel (.I, evt) (.C, evt) := .single (.ic (Or.inl rfl))
  obtain ⟨hI, hC⟩ := h.mem_before hacyc (x := x)
  obtain ⟨hafterC, hafterI, -⟩ := h.mem_after hacyc (x := y)
  rw [hI, hC, hafterC, hafterI, ppo_iff]
  constructor
  · rintro (⟨⟨hx, hload, hpath⟩, hy, -, hpath'⟩ | ⟨⟨hx, hload, hpath⟩, hy, hpath'⟩)
    · exact ⟨hx, hy, fun heq => hx heq.1, hload, Or.inl ⟨hpath, hpath'⟩⟩
    · exact ⟨hx, hy, fun heq => hx heq.1, hload, Or.inr ⟨hpath, hpath'⟩⟩
  · rintro ⟨hx, hy, -, hload, ⟨hpath, hpath'⟩ | ⟨hpath, hpath'⟩⟩
    · by_cases hcase : tb.Reaches evt rel (.C, evt) (tb.hbPart y, y)
      · exact Or.inr ⟨⟨hx, hload, hpath.trans hcommit⟩, hy, hcase⟩
      · exact Or.inl ⟨⟨hx, hload, hpath⟩, hy, hcase, hpath'⟩
    · exact Or.inr ⟨⟨hx, hload, hpath⟩, hy, hpath'⟩

/-- Two committed loads and a third one that is about to be committed. -/
def threeLoads : TB where
  threads := [{ fchCount := 3 }]
  fch := [[{ committed := true, hasLoad := true }, { committed := true, hasLoad := true },
    { hasLoad := true }]]

/-- The third load depends on the first one. -/
def oneDependency : Relations := { ii0 := { bwd := .ofList [⟨0, 1⟩] } }

/-- The commit point of the third load reaches its initiation point by way of the
second one. -/
def dependencyCycle : Relations where
  cc0 := { bwd := .ofList [⟨0, 1⟩] }
  ci0 := { fwd := .ofList [⟨0, 2⟩] }
  ii0 := { bwd := .ofList [⟨0, 2⟩] }

end TB

end ViEqui.Power
