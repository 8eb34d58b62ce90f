import ViEqui.EventTable
import ViEqui.FormulaSemantics

/-!
# The leads of the forward analysis

`forward_analysis` makes one lead for every value that an enabled read can
return next, and forbids the other values in it.

* `mem_unexploredLoop`, `exists_mem_unexploredLoop`, `nodup_unexploredLoop`:
  the unexplored influencers, one for each value.
* `partitionsValues_iff`: when the leads are one for each value.
-/

namespace ViEqui

open AssocMap

/-- The value that the read `r` has in a lead. -/
def Lead.valueRead (l : Lead) (r : IID) : Option Value :=
  (l.mergedSequence.findIid r).map (·.value)

/-- The value of a write at the head of a sequence.  An rmw write computes it
from `0` there, since its read is not before it. -/
def Event.valueAlone (e : Event) : Value :=
  if e.isRmw then
    computeModifiedValue e.rmwOperation 0 e.rmwValue e.expectedValue
  else e.value

namespace Builder

theorem checkEvaluation_forbidValues {b : Builder} {r : IID} {f : SOPFormula}
    {is : List IID} {v : Value} (hf : f.result ≠ .true) :
    (b.forbidValues r f is).checkEvaluation (r, v) = .true ↔
      f.checkEvaluation (r, v) = .true ∨ ∃ i ∈ is, (b.event i).value = v := by
  induction is generalizing f with
  | nil => simp [forbidValues]
  | cons i is ih =>
    show (b.forbidValues r (f.disjRV (r, (b.event i).value)) is).checkEvaluation _ =
      .true ↔ _
    rw [ih (SOPFormula.result_disjRV _ hf), SOPFormula.checkEvaluation_disjRV hf,
      or_assoc]
    simp only [List.mem_cons, exists_eq_or_imp, Prod.mk.injEq, true_and]

/-! ## Unexplored influencers -/

theorem mem_unexploredLoop {b : Builder} {er : Event} {f : SOPFormula}
    {values forbidden : List Value} {is : List IID} {i : IID}
    (h : i ∈ b.unexploredLoop er f values forbidden is) :
    i ∈ is ∧ (b.event i).isWrite ∧ er.sameObject (b.event i) ∧
      f.checkEvaluation (er.iid, (b.event i).value) ≠ .true ∧
      (b.event i).value ∉ values := by
  induction is generalizing values forbidden with
  | nil => cases h
  | cons j is ih =>
    have later : ∀ {values forbidden : List Value},
        i ∈ b.unexploredLoop er f values forbidden is →
        i ∈ j :: is ∧ (b.event i).isWrite ∧ er.sameObject (b.event i) ∧
          f.checkEvaluation (er.iid, (b.event i).value) ≠ .true ∧
          (b.event i).value ∉ values := by
      intro values forbidden h
      obtain ⟨hmem, hrest⟩ := ih h
      exact ⟨List.mem_cons_of_mem _ hmem, hrest⟩
    rw [unexploredLoop] at h
    split at h
    · exact later h
    · next hskip =>
      split at h
      · exact later h
      · next hallowed =>
        rcases List.mem_cons.mp h with rfl | h
        · simp only [Bool.or_eq_true, decide_eq_true_eq, not_or] at hskip
          exact ⟨List.mem_cons_self, by simpa using hskip.1.1.1,
            by simpa using hskip.1.1.2, hallowed, hskip.1.2⟩
        · obtain ⟨hmem, hwrite, hobject, hallow, hvalues⟩ := later h
          exact ⟨hmem, hwrite, hobject, hallow,
            fun hv => hvalues (List.mem_cons_of_mem _ hv)⟩

theorem nodup_unexploredLoop (b : Builder) (er : Event) (f : SOPFormula)
    (values forbidden : List Value) (is : List IID) :
    ((b.unexploredLoop er f values forbidden is).map
      fun i => (b.event i).value).Nodup := by
  induction is generalizing values forbidden with
  | nil => exact List.nodup_nil
  | cons j is ih =>
    rw [unexploredLoop]
    split
    · exact ih _ _
    · split
      · exact ih _ _
      · refine List.nodup_cons.mpr ⟨?_, ih _ _⟩
        intro hmem
        obtain ⟨i, hi, hvalue⟩ := List.mem_map.mp hmem
        have := (mem_unexploredLoop hi).2.2.2.2
        rw [hvalue] at this
        exact this List.mem_cons_self

/-- An enabled write of the object with an allowed value is represented. -/
theorem exists_mem_unexploredLoop {b : Builder} {er : Event} {f : SOPFormula}
    {values forbidden : List Value} {is : List IID} {i : IID} (hi : i ∈ is)
    (hwrite : (b.event i).isWrite) (hobject : er.sameObject (b.event i))
    (hallowed : f.checkEvaluation (er.iid, (b.event i).value) ≠ .true)
    (hvalues : (b.event i).value ∉ values)
    (hforbidden : ∀ v ∈ forbidden, f.checkEvaluation (er.iid, v) = .true) :
    ∃ j ∈ b.unexploredLoop er f values forbidden is,
      (b.event j).value = (b.event i).value := by
  have hnot : (b.event i).value ∉ forbidden := fun hv => hallowed (hforbidden _ hv)
  induction is generalizing values forbidden with
  | nil => cases hi
  | cons k is ih =>
    rw [unexploredLoop]
    split
    · next hskip =>
      rcases List.mem_cons.mp hi with rfl | hi
      · simp [hwrite, hobject, hvalues, hnot] at hskip
      · exact ih hi hvalues hforbidden hnot
    · split
      · next hf =>
        rcases List.mem_cons.mp hi with rfl | hi
        · exact absurd hf hallowed
        · refine ih hi hvalues ?_ ?_
          · intro v hv
            rcases List.mem_cons.mp hv with rfl | hv
            · exact hf
            · exact hforbidden v hv
          · rw [List.mem_cons, not_or]
            exact ⟨fun heq => hallowed (heq ▸ hf), hnot⟩
      · by_cases hvalue : (b.event k).value = (b.event i).value
        · exact ⟨k, List.mem_cons_self, hvalue⟩
        · rcases List.mem_cons.mp hi with rfl | hi
          · exact absurd rfl hvalue
          · have hvalues' : (b.event i).value ∉ (b.event k).value :: values := by
              simp [hvalues, Ne.symm hvalue]
            obtain ⟨j, hj, hjv⟩ := ih hi hvalues' hforbidden hnot
            exact ⟨j, List.mem_cons_of_mem _ hj, hjv⟩

theorem mem_unexploredInfluencers {env : Env} {b : Builder} {er : Event}
    {f : SOPFormula} {i : IID} :
    i ∈ b.unexploredInfluencers env er f ↔
      i ∈ b.unexploredLoop er f [] [] b.enabled :=
  (env.iidOrder_perm _).mem_iff

theorem nodup_unexploredInfluencers (env : Env) (b : Builder) (er : Event)
    (f : SOPFormula) :
    ((b.unexploredInfluencers env er f).map fun i => (b.event i).value).Nodup :=
  ((env.iidOrder_perm _).map _).nodup_iff.mpr (nodup_unexploredLoop b er f [] [] _)

/-! ## One lead for each value -/

/-- The value `v` is one that the read `r` can return next. -/
def NextValue (b : Builder) (r : IID) (v : Value) : Prop :=
  v = b.memAt (b.event r).object ∨
    ∃ w ∈ b.enabled, (b.event w).isWrite ∧ (b.event r).sameObject (b.event w) ∧
      (b.event w).value = v

/-- The forward leads of the read `r` are one for each value that it can
return next and that `f` does not forbid.  In the lead for a value the read
returns this value, and all other values are forbidden. -/
structure PartitionsValues (env : Env) (b : Builder) (r : IID) (f : SOPFormula) :
    Prop where
  reads : ∀ l ∈ b.forwardLeads env (b.event r) f, (l.valueRead r).isSome
  distinct : ((b.forwardLeads env (b.event r) f).map (·.valueRead r)).Nodup
  values : ∀ v, (∃ l ∈ b.forwardLeads env (b.event r) f, l.valueRead r = some v) ↔
    b.NextValue r v ∧ f.checkEvaluation (r, v) ≠ .true
  allows : ∀ l ∈ b.forwardLeads env (b.event r) f, ∀ v, l.valueRead r = some v →
    l.forbidden.checkEvaluation (r, v) ≠ .true
  forbids : ∀ l ∈ b.forwardLeads env (b.event r) f, ∀ v, l.valueRead r = some v →
    ∀ v', b.NextValue r v' → v' ≠ v → l.forbidden.checkEvaluation (r, v') = .true

/-- Every unexplored influencer that changes the value keeps its own value at
the head of a sequence. -/
def InfluencersKeepValue (env : Env) (b : Builder) (r : IID) (f : SOPFormula) :
    Prop :=
  ∀ w ∈ b.unexploredInfluencers env (b.event r) f,
    (b.event w).value ≠ b.memAt (b.event r).object →
    (b.event w).valueAlone = (b.event w).value

instance (env : Env) (b : Builder) (r : IID) (f : SOPFormula) :
    Decidable (b.InfluencersKeepValue env r f) :=
  inferInstanceAs (Decidable (∀ w ∈ _, _ → _))

/-- The unexplored influencers that change the value of `r`. -/
def changing (env : Env) (b : Builder) (r : IID) (f : SOPFormula) : List IID :=
  (b.unexploredInfluencers env (b.event r) f).filter
    fun i => (b.event i).value ≠ b.memAt (b.event r).object

/-- The lead in which the read keeps the current value. -/
def stayLead (env : Env) (b : Builder) (r : IID) (f : SOPFormula) : Lead :=
  Lead.ofStart b.toContainer [r] (b.forbidValues r f (b.changing env r f)) b.mem

/-- The lead in which the read returns the value of `w`. -/
def changeLead (env : Env) (b : Builder) (r : IID) (f : SOPFormula) (w : IID) :
    Lead :=
  Lead.ofStart b.toContainer [w, r]
    (b.forbidValues r (f.disjRV (r, b.memAt (b.event r).object))
      ((b.unexploredInfluencers env (b.event r) f).filter (· ≠ w))) b.mem

section

variable {env : Env} {b : Builder} {r : IID} {f : SOPFormula}

theorem forwardLeads_eq (hr : (b.event r).iid = r) :
    b.forwardLeads env (b.event r) f =
      (if f.checkEvaluation (r, b.memAt (b.event r).object) = .true then []
        else [b.stayLead env r f]) ++
      (b.changing env r f).map (b.changeLead env r f) := by
  unfold forwardLeads stayLead changeLead changing
  simp only [hr]

theorem mem_forwardLeads (hr : (b.event r).iid = r) {l : Lead} :
    l ∈ b.forwardLeads env (b.event r) f ↔
      (f.checkEvaluation (r, b.memAt (b.event r).object) ≠ .true ∧
        l = b.stayLead env r f) ∨
      ∃ w ∈ b.changing env r f, l = b.changeLead env r f w := by
  rw [forwardLeads_eq hr, List.mem_append, List.mem_map]
  split
  · next h => simp [h, eq_comm]
  · next h => simp [h, eq_comm]

theorem mem_changing {w : IID} : w ∈ b.changing env r f ↔
    w ∈ b.unexploredInfluencers env (b.event r) f ∧
      (b.event w).value ≠ b.memAt (b.event r).object := by
  simp [changing]

/-- The read keeps the current value when it is executed next. -/
theorem valueRead_stayLead (hr : (b.event r).iid = r)
    (hread : (b.event r).isRead) :
    (b.stayLead env r f).valueRead r =
      some (b.memAt (b.event r).object) := by
  have hwrite : ¬(b.event r).isWrite := by
    intro h
    rw [Event.isRead_eq_false_of_isWrite h] at hread
    cases hread
  show ((Sequence.replayEvents b.mem 0 [] [b.event r]).find?
    fun ev => ev.iid = r).map (·.value) = _
  rw [Sequence.replayEvents, if_neg hwrite, if_pos hread]
  rw [List.find?_cons_of_pos (by simpa using hr)]
  rfl

/-- Behind a write of its object the read returns what the write stores. -/
theorem valueRead_changeLead (hb : b.Stamped) (hr : (b.event r).iid = r)
    (hread : (b.event r).isRead) {w : IID} (hw : (b.event w).isWrite)
    (hobject : (b.event r).sameObject (b.event w)) :
    (b.changeLead env r f w).valueRead r = some (b.event w).valueAlone := by
  have hwrite : ¬(b.event r).isWrite := by
    intro h
    rw [Event.isRead_eq_false_of_isWrite h] at hread
    cases hread
  have hiid : (b.event w).iid = w := by
    simp only [Event.isWrite, Bool.and_eq_true] at hw
    exact hb.iid hw.1
  have hne : w ≠ r := by
    rintro rfl
    exact hwrite hw
  have hobject : (b.event r).object = (b.event w).object := by
    simpa [Event.sameObject] using hobject
  show ((Sequence.replayEvents b.mem 0 [] [b.event w, b.event r]).find?
    fun ev => ev.iid = r).map (·.value) = _
  simp only [Sequence.replayEvents, if_pos hw, if_neg hwrite, if_pos hread]
  rw [List.find?_cons_of_neg (by simp [hiid, hne]),
    List.find?_cons_of_pos (by simpa using hr), hobject, find?_insert_self]
  rfl

/-- What the influencers of the read have in common. -/
theorem changing_spec (hr : (b.event r).iid = r) {w : IID}
    (hw : w ∈ b.changing env r f) :
    w ∈ b.enabled ∧ (b.event w).isWrite ∧ (b.event r).sameObject (b.event w) ∧
      f.checkEvaluation (r, (b.event w).value) ≠ .true := by
  obtain ⟨hmem, hwrite, hobject, hallowed, _⟩ :=
    mem_unexploredLoop (mem_unexploredInfluencers.mp (mem_changing.mp hw).1)
  rw [hr] at hallowed
  exact ⟨hmem, hwrite, hobject, hallowed⟩

/-- A value other than the current one comes from an influencer. -/
theorem exists_changing (hr : (b.event r).iid = r) {v : Value}
    (hnext : b.NextValue r v) (hallowed : f.checkEvaluation (r, v) ≠ .true)
    (hv : v ≠ b.memAt (b.event r).object) :
    ∃ w ∈ b.changing env r f, (b.event w).value = v := by
  obtain ⟨i, hi, hwrite, hobject, rfl⟩ := hnext.resolve_left hv
  rw [← hr] at hallowed
  obtain ⟨w, hw, hwv⟩ := exists_mem_unexploredLoop hi hwrite hobject hallowed
    List.not_mem_nil fun _ h => absurd h List.not_mem_nil
  refine ⟨w, mem_changing.mpr ⟨mem_unexploredInfluencers.mpr hw, ?_⟩, hwv⟩
  rw [hwv]
  exact hv

/-- What the lead of the current value forbids. -/
theorem forbidden_stayLead (hf : f.result ≠ .true) {v : Value} :
    (b.stayLead env r f).forbidden.checkEvaluation (r, v) = .true ↔
      f.checkEvaluation (r, v) = .true ∨
        ∃ w ∈ b.changing env r f, (b.event w).value = v :=
  checkEvaluation_forbidValues hf

/-- What the lead of an influencer forbids. -/
theorem forbidden_changeLead (hf : f.result ≠ .true) {w : IID} {v : Value} :
    (b.changeLead env r f w).forbidden.checkEvaluation (r, v) = .true ↔
      (f.checkEvaluation (r, v) = .true ∨ b.memAt (b.event r).object = v) ∨
        ∃ j ∈ b.unexploredInfluencers env (b.event r) f,
          j ≠ w ∧ (b.event j).value = v := by
  refine (checkEvaluation_forbidValues (SOPFormula.result_disjRV _ hf)).trans ?_
  rw [SOPFormula.checkEvaluation_disjRV hf]
  simp only [List.mem_filter, decide_eq_true_eq, and_assoc, Prod.mk.injEq, true_and]

/-- Two influencers have different values. -/
theorem influencer_eq_of_value {i j : IID}
    (hi : i ∈ b.unexploredInfluencers env (b.event r) f)
    (hj : j ∈ b.unexploredInfluencers env (b.event r) f)
    (h : (b.event i).value = (b.event j).value) : i = j :=
  List.inj_on_of_nodup_map (nodup_unexploredInfluencers env b (b.event r) f) hi hj h

/-- The values that the read has in the leads, in their order. -/
theorem valuesRead_forwardLeads (hb : b.Stamped) (hr : (b.event r).iid = r)
    (hread : (b.event r).isRead) :
    (b.forwardLeads env (b.event r) f).map (·.valueRead r) =
      (if f.checkEvaluation (r, b.memAt (b.event r).object) = .true then []
        else [some (b.memAt (b.event r).object)]) ++
      (b.changing env r f).map fun w => some (b.event w).valueAlone := by
  rw [forwardLeads_eq hr, List.map_append, List.map_map]
  congr 1
  · split
    · rfl
    · exact congrArg (fun x => [x]) (valueRead_stayLead hr hread)
  · refine List.map_congr_left fun w hw => ?_
    obtain ⟨_, hwrite, hobject, _⟩ := changing_spec hr hw
    exact valueRead_changeLead hb hr hread hwrite hobject

theorem partitionsValues_of_keep (hb : b.Stamped) (hr : (b.event r).iid = r)
    (hread : (b.event r).isRead) (hf : f.result ≠ .true)
    (hkeep : b.InfluencersKeepValue env r f) : b.PartitionsValues env r f := by
  have hstay : (b.stayLead env r f).valueRead r =
      some (b.memAt (b.event r).object) := valueRead_stayLead hr hread
  have hchange : ∀ w ∈ b.changing env r f,
      (b.changeLead env r f w).valueRead r = some (b.event w).value := by
    intro w hw
    obtain ⟨_, hwrite, hobject, _⟩ := changing_spec hr hw
    rw [valueRead_changeLead hb hr hread hwrite hobject,
      hkeep w (mem_changing.mp hw).1 (mem_changing.mp hw).2]
  constructor
  case reads =>
    intro l hl
    rcases (mem_forwardLeads hr).mp hl with ⟨_, rfl⟩ | ⟨w, hw, rfl⟩
    · rw [hstay]
      rfl
    · rw [hchange w hw]
      rfl
  case distinct =>
    have hvalues : ((b.changing env r f).map fun w => some (b.event w).valueAlone) =
        ((b.changing env r f).map fun w => (b.event w).value).map some := by
      rw [List.map_map]
      refine List.map_congr_left fun w hw => ?_
      exact congrArg some (hkeep w (mem_changing.mp hw).1 (mem_changing.mp hw).2)
    have hnodup : ((b.changing env r f).map fun w => (b.event w).value).Nodup :=
      (nodup_unexploredInfluencers env b (b.event r) f).sublist
        (List.filter_sublist.map _)
    rw [valuesRead_forwardLeads hb hr hread, hvalues, List.nodup_append]
    refine ⟨by split <;> simp, hnodup.map fun _ _ h => Option.some.inj h, ?_⟩
    intro x hx y hy
    obtain ⟨v, hv, rfl⟩ := List.mem_map.mp hy
    obtain ⟨w, hw, rfl⟩ := List.mem_map.mp hv
    split at hx
    · cases hx
    · rw [List.mem_singleton.mp hx]
      intro heq
      exact (mem_changing.mp hw).2 (Option.some.inj heq).symm
  case values =>
    intro v
    constructor
    · rintro ⟨l, hl, hv⟩
      rcases (mem_forwardLeads hr).mp hl with ⟨hallowed, rfl⟩ | ⟨w, hw, rfl⟩
      · rw [hstay] at hv
        cases hv
        exact ⟨.inl rfl, hallowed⟩
      · rw [hchange w hw] at hv
        cases hv
        obtain ⟨hmem, hwrite, hobject, hallowed⟩ := changing_spec hr hw
        exact ⟨.inr ⟨w, hmem, hwrite, hobject, rfl⟩, hallowed⟩
    · rintro ⟨hnext, hallowed⟩
      by_cases hv : v = b.memAt (b.event r).object
      · subst hv
        exact ⟨_, (mem_forwardLeads hr).mpr (.inl ⟨hallowed, rfl⟩), hstay⟩
      · obtain ⟨w, hw, rfl⟩ := exists_changing hr hnext hallowed hv
        exact ⟨_, (mem_forwardLeads hr).mpr (.inr ⟨w, hw, rfl⟩), hchange w hw⟩
  case allows =>
    intro l hl v hv
    rcases (mem_forwardLeads hr).mp hl with ⟨hallowed, rfl⟩ | ⟨w, hw, rfl⟩
    · rw [hstay] at hv
      cases hv
      rw [ne_eq, forbidden_stayLead hf]
      rintro (hforbid | ⟨w, hw, hvalue⟩)
      · exact hallowed hforbid
      · exact (mem_changing.mp hw).2 hvalue
    · rw [hchange w hw] at hv
      cases hv
      rw [ne_eq, forbidden_changeLead hf]
      rintro ((hforbid | hcurrent) | ⟨j, hj, hne, hvalue⟩)
      · exact (changing_spec hr hw).2.2.2 hforbid
      · exact (mem_changing.mp hw).2 hcurrent.symm
      · exact hne (influencer_eq_of_value hj (mem_changing.mp hw).1 hvalue)
  case forbids =>
    intro l hl v hv v' hnext hne
    by_cases hforbid : f.checkEvaluation (r, v') = .true
    · rcases (mem_forwardLeads hr).mp hl with ⟨_, rfl⟩ | ⟨w, _, rfl⟩
      · exact (forbidden_stayLead hf).mpr (.inl hforbid)
      · exact (forbidden_changeLead hf).mpr (.inl (.inl hforbid))
    · rcases (mem_forwardLeads hr).mp hl with ⟨_, rfl⟩ | ⟨w, hw, rfl⟩
      · rw [hstay] at hv
        cases hv
        exact (forbidden_stayLead hf).mpr
          (.inr (exists_changing hr hnext hforbid hne))
      · rw [hchange w hw] at hv
        cases hv
        refine (forbidden_changeLead hf).mpr ?_
        by_cases hcurrent : v' = b.memAt (b.event r).object
        · exact .inl (.inr hcurrent.symm)
        · obtain ⟨j, hj, rfl⟩ := exists_changing hr hnext hforbid hcurrent
          exact .inr ⟨j, (mem_changing.mp hj).1, fun h => hne (h ▸ rfl), rfl⟩

theorem keep_of_partitionsValues (hb : b.Stamped) (hr : (b.event r).iid = r)
    (hread : (b.event r).isRead) (hf : f.result ≠ .true)
    (h : b.PartitionsValues env r f) : b.InfluencersKeepValue env r f := by
  intro w hw hcurrent
  have hchanging : w ∈ b.changing env r f := mem_changing.mpr ⟨hw, hcurrent⟩
  have hlead := (mem_forwardLeads hr).mpr (.inr ⟨w, hchanging, rfl⟩)
  obtain ⟨_, hwrite, hobject, _⟩ := changing_spec hr hchanging
  have hvalue : (b.changeLead env r f w).valueRead r = some (b.event w).valueAlone :=
    valueRead_changeLead hb hr hread hwrite hobject
  -- the value that the read returns in the lead is one that the lead allows
  obtain ⟨hnext, hallowed⟩ := (h.values _).mp ⟨_, hlead, hvalue⟩
  have hallows := h.allows _ hlead _ hvalue
  rw [ne_eq, forbidden_changeLead hf, not_or, not_or] at hallows
  obtain ⟨j, hj, hjv⟩ := exists_changing hr hnext hallowed (Ne.symm hallows.1.2)
  by_contra hne
  refine hallows.2 ⟨j, (mem_changing.mp hj).1, ?_, hjv⟩
  rintro rfl
  exact hne hjv.symm

/-- The forward leads are one for each value exactly when the influencers that
change the value keep their own. -/
theorem partitionsValues_iff (hb : b.Stamped) (hread : (b.event r).isRead)
    (hf : f.result ≠ .true) :
    b.PartitionsValues env r f ↔ b.InfluencersKeepValue env r f := by
  have hr : (b.event r).iid = r := by
    simp only [Event.isRead, Bool.and_eq_true] at hread
    exact hb.iid hread.1
  exact ⟨keep_of_partitionsValues hb hr hread hf,
    partitionsValues_of_keep hb hr hread hf⟩

end

/-- Main runs four such pairs, joins thread 1, and increments `x` twice by 5
before it loads it.  Thread 2 stores to `x`. -/
def blockedPairsProgram : Program := fun code results =>
  let x := globalInt 0
  match code, results.length with
  | 0, 0 | 1, 0 | 2, 0 => .skip
  | 0, 1 => .spawn 1
  | 0, 2 => .spawn 2
  | 0, 3 => .load (globalInt 3)
  | 0, 4 => .rmw .add (globalInt 3) 1
  | 0, 5 => .load (globalInt 4)
  | 0, 6 => .rmw .add (globalInt 4) 1
  | 0, 7 => .load (globalInt 5)
  | 0, 8 => .rmw .add (globalInt 5) 1
  | 0, 9 => .load (globalInt 6)
  | 0, 10 => .rmw .add (globalInt 6) 1
  | 0, 11 => .join 1
  | 0, 12 | 0, 13 => .rmw .add x 5
  | 0, 14 => .load x
  | 1, n => if n ≤ 4 then .load (globalInt 1) else .ret
  | 2, 1 => .store x 3
  | 2, 2 | 2, 3 => .load (globalInt 2)
  | 2, 4 => .store x 1
  | _, _ => .ret

end Builder

end ViEqui
