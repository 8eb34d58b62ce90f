import ViEqui.Reachable

/-!
# Covered values and feasible leads

The loops of the backward analysis add a lead for a read and a value, and
record the value in `covered_read_values` so that no other pair of events is
tried for it.

* `readLog`, `writeLog`: the additions of a run of a loop, and
  `backwardReadLoop_eq`, `backwardWriteLoop_spec`: the loop does nothing else
  to the leads and the covered values.
* `mem_readLog`, `exists_mem_readLog`: a value comes from its first reversible
  influencer.
* `coversFeasibly_iff`: when a covered value has a lead that can be explored.
-/

namespace ViEqui

open AssocMap

theorem Sequence.toEventSequenceFrom_eq_nil {c : Container} {s : Sequence}
    {source : EventSequence} {mem : Memory} :
    s.toEventSequenceFrom c source mem = [] ↔ s = [] := by
  cases s with
  | nil => simp [Sequence.toEventSequenceFrom, Sequence.replayEvents]
  | cons e s =>
    simp only [Sequence.toEventSequenceFrom, List.map_cons,
      Sequence.replayEvents, reduceCtorEq, iff_false]
    split
    · simp
    · split <;> simp

/-- An iteration that covers a value of a read: the lead that it adds, and the
state the lead goes to. -/
structure Addition where
  read : IID
  value : Value
  state : Nat
  lead : Lead

namespace Builder

/-- `covered_read_values` behind some additions. -/
def coverAll (b : Builder) (log : List Addition) : Builder :=
  log.foldl (fun b a => b.cover a.read a.value) b

/-- The leads behind some additions. -/
def pushAll (acc : Map Nat (List Lead)) (log : List Addition) :
    Map Nat (List Lead) :=
  log.foldl (fun acc a => modify acc a.state [] (· ++ [a.lead])) acc

theorem covered_cover (b : Builder) (r r' : IID) (v : Value) :
    (b.cover r v).covered r' =
      if r = r' then b.covered r' ++ [v] else b.covered r' :=
  getD_modify b.coveredReadValues r r' [] (· ++ [v])

theorem mem_covered_coverAll {b : Builder} {log : List Addition} {r : IID}
    {v : Value} : v ∈ (b.coverAll log).covered r ↔
      v ∈ b.covered r ∨ ∃ a ∈ log, a.read = r ∧ a.value = v := by
  induction log generalizing b with
  | nil => simp [coverAll]
  | cons a log ih =>
    have hstep : v ∈ (b.cover a.read a.value).covered r ↔
        v ∈ b.covered r ∨ a.read = r ∧ a.value = v := by
      rw [covered_cover]
      by_cases hr : a.read = r
      · simp [hr, eq_comm]
      · simp [hr]
    show v ∈ ((b.cover a.read a.value).coverAll log).covered r ↔ _
    rw [ih, hstep, or_assoc]
    simp only [List.mem_cons, exists_eq_or_imp]

theorem mem_pushAll {acc : Map Nat (List Lead)} {log : List Addition} {i : Nat}
    {l : Lead} : l ∈ getD (pushAll acc log) i [] ↔
      l ∈ getD acc i [] ∨ ∃ a ∈ log, a.state = i ∧ a.lead = l := by
  induction log generalizing acc with
  | nil => simp [pushAll]
  | cons a log ih =>
    have hstep : l ∈ getD (modify acc a.state [] (· ++ [a.lead])) i [] ↔
        l ∈ getD acc i [] ∨ a.state = i ∧ a.lead = l := by
      rw [getD_modify]
      by_cases hi : a.state = i
      · simp [hi, eq_comm]
      · simp [hi]
    show l ∈ getD (pushAll (modify acc a.state [] (· ++ [a.lead])) log) i [] ↔ _
    rw [ih, hstep, or_assoc]
    simp only [List.mem_cons, exists_eq_or_imp]

/-! ## Explored influencers -/

/-- The state and the start of the lead for the explored influencer `i`, if
the pair can be reversed. -/
def influencerStart (env : Env) (b : Builder) (event : Event) (i : IID) :
    Option (Option (Nat × Sequence)) := do
  let start ← b.executionSequence.backseq env.fuel b.toContainer i event.iid []
  if start = [] then return none
  else
    let idx := b.executionSequence.idxOf i
    let (idx, atUnion) : Nat × IID :=
      if (b.event i).isRmw then (idx - 1, ⟨i.pid, i.idx - 1⟩) else (idx, i)
    return some (b.unionStateStart idx atUnion start)

/-- The pair of the influencer and the read can be reversed. -/
def reversible (env : Env) (b : Builder) (event : Event) (i : IID) : Bool :=
  (b.influencerStart env event i).any (·.isSome)

/-- The start has a merge with the constraint of its state. -/
def feasibleStart (env : Env) (b : Builder) (event : Event) (state : Nat)
    (start : Sequence) : Bool :=
  (start.consistentMerge env.fuel b.toContainer
    (b.getConstraint state event).toIidSequence).any (·.result ≠ [])

/-- The influencer has a lead that can be explored. -/
def feasible (env : Env) (b : Builder) (event : Event) (i : IID) : Bool :=
  (b.influencerStart env event i).any fun s =>
    s.any fun s => b.feasibleStart env event s.1 s.2

/-- The lead for a start can be explored when the start has a merge. -/
theorem feasibleStart_iff {env : Env} {b : Builder} {event : Event}
    {state : Nat} {start : Sequence} {f : SOPFormula} {mem : Memory} {l : Lead}
    (h : Lead.ofConstraint env.fuel b.toContainer (b.getConstraint state event)
      start f mem = some l) :
    b.feasibleStart env event state start ↔ l.mergedSequence ≠ [] := by
  unfold Lead.ofConstraint at h
  rw [Option.bind_eq_bind, Option.bind_eq_some_iff] at h
  obtain ⟨m, hm, h⟩ := h
  cases h
  unfold feasibleStart
  rw [hm]
  simp [Sequence.toEventSequenceFrom_eq_nil]

/-- The lead for the influencer `i`, among the influencers `all`. -/
def influencerLead (env : Env) (b : Builder) (event : Event) (fui : SOPFormula)
    (all : List IID) (i : IID) : Option (Option (Nat × Lead)) := do
  match ← b.influencerStart env event i with
  | none => return none
  | some (state, start) =>
    let fei := b.forbidValues event.iid {} (all.filter (· ≠ i))
    let inF := ((b.stateAt state).alphaLead.forbidden.disj fui).disj fei
    let lead ← Lead.ofConstraint env.fuel b.toContainer
      (b.getConstraint state event) start inF (b.stateAt state).mem
    return some (state, lead)

/-- The loop does not look at the value `v`: it is the current one, that of an
unexplored influencer, or covered. -/
def Passed (b : Builder) (event : Event) (uiValues : List Value) (v : Value) :
    Prop :=
  v = b.memAt event.object ∨ v ∈ uiValues ∨ v ∈ b.covered event.iid

instance (b : Builder) (event : Event) (uiValues : List Value) (v : Value) :
    Decidable (b.Passed event uiValues v) :=
  inferInstanceAs (Decidable (_ ∨ _ ∨ _))

/-- The additions of the loop of `backward_analysis_read`.  `seen` are the
values that it has covered. -/
def readLog (env : Env) (b : Builder) (event : Event) (uiValues : List Value)
    (fui : SOPFormula) (all : List IID) :
    List Value → List IID → Option (List Addition)
  | _, [] => some []
  | seen, i :: rest => do
    let value := (b.event i).value
    if b.Passed event uiValues value ∨ value ∈ seen then
      readLog env b event uiValues fui all seen rest
    else
      match ← b.influencerLead env event fui all i with
      | none => readLog env b event uiValues fui all seen rest
      | some (state, lead) =>
        let log ← readLog env b event uiValues fui all (seen ++ [value]) rest
        return ⟨event.iid, value, state, lead⟩ :: log

theorem readLog_cover {env : Env} {b : Builder} {event : Event}
    {uiValues : List Value} {fui : SOPFormula} {all : List IID} {v : Value}
    {seen : List Value} {is : List IID} :
    readLog env (b.cover event.iid v) event uiValues fui all seen is =
      readLog env b event uiValues fui all (v :: seen) is := by
  induction is generalizing seen with
  | nil => rfl
  | cons i rest ih =>
    have hpassed : (b.cover event.iid v).Passed event uiValues (b.event i).value ∨
        (b.event i).value ∈ seen ↔
        b.Passed event uiValues (b.event i).value ∨ (b.event i).value ∈ v :: seen := by
      have hmem : (b.cover event.iid v).memAt event.object = b.memAt event.object := rfl
      unfold Passed
      rw [covered_cover, if_pos rfl, hmem, List.mem_append, List.mem_singleton,
        List.mem_cons]
      simp only [or_assoc]
    rw [readLog, readLog]
    by_cases h : b.Passed event uiValues (b.event i).value ∨
        (b.event i).value ∈ v :: seen
    · have h' := hpassed.mpr h
      show (if (b.cover event.iid v).Passed event uiValues (b.event i).value ∨
        (b.event i).value ∈ seen then _ else _) = _
      rw [if_pos h', if_pos h]
      exact ih
    · have h' := fun hp => h (hpassed.mp hp)
      show (if (b.cover event.iid v).Passed event uiValues (b.event i).value ∨
        (b.event i).value ∈ seen then _ else _) = _
      rw [if_neg h', if_neg h]
      have hlead : (b.cover event.iid v).influencerLead env event fui all i =
          b.influencerLead env event fui all i := rfl
      rw [hlead]
      cases b.influencerLead env event fui all i with
      | none => rfl
      | some r =>
        cases r with
        | none => exact ih
        | some r =>
          show (readLog env (b.cover event.iid v) event uiValues fui all
            (seen ++ [(b.event i).value]) rest).bind _ = (readLog env b event
              uiValues fui all (v :: seen ++ [(b.event i).value]) rest).bind _
          rw [ih]
          rfl

/-- The body of the loop, in terms of the lead for the influencer. -/
theorem backwardReadLoop_cons {env : Env} {b : Builder} {event : Event}
    {uiValues : List Value} {fui : SOPFormula} {all : List IID}
    {acc : Map Nat (List Lead)} {i : IID} {rest : List IID} :
    backwardReadLoop env event uiValues fui all b acc (i :: rest) =
      if b.Passed event uiValues (b.event i).value then
        backwardReadLoop env event uiValues fui all b acc rest
      else (b.influencerLead env event fui all i).bind fun
        | none => backwardReadLoop env event uiValues fui all b acc rest
        | some (state, lead) =>
          backwardReadLoop env event uiValues fui all
            (b.cover event.iid (b.event i).value)
            (modify acc state [] (· ++ [lead])) rest := by
  rw [backwardReadLoop]
  by_cases h : b.Passed event uiValues (b.event i).value
  · rw [if_pos h]
    exact if_pos h
  · rw [if_neg h]
    refine (if_neg h).trans ?_
    unfold influencerLead influencerStart
    cases b.executionSequence.backseq env.fuel b.toContainer i event.iid [] with
    | none => rfl
    | some start =>
      simp only [Option.bind_eq_bind, Option.bind_some, Option.pure_def]
      by_cases hstart : start = []
      · simp only [if_pos hstart, Option.bind_some]
      · simp only [if_neg hstart, Option.bind_some, Option.bind_assoc]

/-- The loop of `backward_analysis_read` adds the leads of its log and covers
the values of its log. -/
theorem backwardReadLoop_eq {env : Env} {b : Builder} {event : Event}
    {uiValues : List Value} {fui : SOPFormula} {all : List IID}
    {acc : Map Nat (List Lead)} {is : List IID} :
    backwardReadLoop env event uiValues fui all b acc is =
      (readLog env b event uiValues fui all [] is).map fun log =>
        (b.coverAll log, pushAll acc log) := by
  induction is generalizing b acc with
  | nil => rfl
  | cons i rest ih =>
    have hseen : (b.Passed event uiValues (b.event i).value ∨
        (b.event i).value ∈ ([] : List Value)) ↔
        b.Passed event uiValues (b.event i).value := by simp
    rw [backwardReadLoop_cons, readLog]
    simp only [hseen]
    split
    · exact ih
    · cases b.influencerLead env event fui all i with
      | none => rfl
      | some r =>
        cases r with
        | none => exact ih
        | some r =>
          obtain ⟨state, lead⟩ := r
          refine ih.trans ?_
          rw [readLog_cover]
          show _ = Option.map _ ((readLog env b event uiValues fui all
            [(b.event i).value] rest).bind fun log =>
              some (⟨event.iid, (b.event i).value, state, lead⟩ :: log))
          cases readLog env b event uiValues fui all [(b.event i).value] rest with
          | none => rfl
          | some log => rfl

/-- The lead of an influencer is the one for its start. -/
theorem influencerLead_eq_some {env : Env} {b : Builder} {event : Event}
    {fui : SOPFormula} {all : List IID} {i : IID} {r : Option (Nat × Lead)}
    (h : b.influencerLead env event fui all i = some r) :
    b.reversible env event i = r.isSome ∧
      ∀ state lead, r = some (state, lead) →
        (b.feasible env event i ↔ lead.mergedSequence ≠ []) := by
  unfold influencerLead at h
  rw [Option.bind_eq_bind, Option.bind_eq_some_iff] at h
  obtain ⟨s, hstart, h⟩ := h
  unfold reversible feasible
  rw [hstart]
  cases s with
  | none =>
    cases h
    exact ⟨rfl, fun _ _ h => by cases h⟩
  | some s =>
    simp only [Option.bind_eq_bind, Option.bind_eq_some_iff] at h
    obtain ⟨lead, hlead, h⟩ := h
    cases h
    refine ⟨rfl, ?_⟩
    rintro state lead' ⟨⟩
    exact feasibleStart_iff hlead

/-! The additions of the loop, in terms of the first influencer of a value
that can be reversed. -/

/-- The influencer has the value `v` and can be reversed. -/
def reversesTo (env : Env) (b : Builder) (event : Event) (v : Value) (i : IID) :
    Bool :=
  (b.event i).value = v && b.reversible env event i

/-- An addition comes from the first influencer that reverses to its value. -/
theorem mem_readLog {env : Env} {b : Builder} {event : Event}
    {uiValues : List Value} {fui : SOPFormula} {all : List IID}
    {seen : List Value} {is : List IID} {log : List Addition} {a : Addition}
    (h : readLog env b event uiValues fui all seen is = some log) (ha : a ∈ log) :
    a.read = event.iid ∧ ¬b.Passed event uiValues a.value ∧ a.value ∉ seen ∧
      ∃ i, is.find? (b.reversesTo env event a.value) = some i ∧
        b.influencerLead env event fui all i = some (some (a.state, a.lead)) := by
  induction is generalizing seen log with
  | nil =>
    cases h
    cases ha
  | cons i rest ih =>
    rw [readLog] at h
    by_cases hskip : b.Passed event uiValues (b.event i).value ∨
        (b.event i).value ∈ seen
    · rw [if_pos hskip] at h
      obtain ⟨hread, hpassed, hseen, j, hfind, hlead⟩ := ih h ha
      have hi : b.reversesTo env event a.value i = false := by
        rw [reversesTo, Bool.and_eq_false_iff, decide_eq_false_iff_not]
        left
        intro heq
        rw [heq] at hskip
        exact hskip.elim hpassed hseen
      exact ⟨hread, hpassed, hseen, j, (List.find?_cons_of_neg (by simp [hi])).trans hfind,
        hlead⟩
    · rw [if_neg hskip, Option.bind_eq_bind, Option.bind_eq_some_iff] at h
      obtain ⟨r, hr, h⟩ := h
      have hrev := (influencerLead_eq_some hr).1
      cases r with
      | none =>
        obtain ⟨hread, hpassed, hseen, j, hfind, hlead⟩ := ih h ha
        have hi : b.reversesTo env event a.value i = false := by
          rw [reversesTo, hrev]
          simp
        exact ⟨hread, hpassed, hseen, j,
          (List.find?_cons_of_neg (by simp [hi])).trans hfind, hlead⟩
      | some r =>
        obtain ⟨state, lead⟩ := r
        rw [Option.bind_eq_bind, Option.bind_eq_some_iff] at h
        obtain ⟨log', hlog, h⟩ := h
        cases h
        rcases List.mem_cons.mp ha with rfl | ha
        · -- the influencer `i` is the first one that reverses to its value
          have hi : b.reversesTo env event (b.event i).value i = true := by
            rw [reversesTo, hrev]
            simp
          rw [not_or] at hskip
          exact ⟨rfl, hskip.1, hskip.2, i, List.find?_cons_of_pos hi, hr⟩
        · obtain ⟨hread, hpassed, hseen, j, hfind, hlead⟩ := ih hlog ha
          rw [List.mem_append, List.mem_singleton, not_or] at hseen
          have hi : b.reversesTo env event a.value i = false := by
            rw [reversesTo]
            simp [Ne.symm hseen.2]
          exact ⟨hread, hpassed, hseen.1, j,
            (List.find?_cons_of_neg (by simp [hi])).trans hfind, hlead⟩

/-- A value that the loop looks at is covered when some influencer reverses to
it. -/
theorem exists_mem_readLog {env : Env} {b : Builder} {event : Event}
    {uiValues : List Value} {fui : SOPFormula} {all : List IID}
    {seen : List Value} {is : List IID} {log : List Addition} {v : Value}
    (h : readLog env b event uiValues fui all seen is = some log)
    (hpassed : ¬b.Passed event uiValues v) (hseen : v ∉ seen)
    (hrev : ∃ i ∈ is, b.reversesTo env event v i) :
    ∃ a ∈ log, a.value = v := by
  induction is generalizing seen log with
  | nil =>
    obtain ⟨i, hi, _⟩ := hrev
    cases hi
  | cons i rest ih =>
    rw [readLog] at h
    by_cases hskip : b.Passed event uiValues (b.event i).value ∨
        (b.event i).value ∈ seen
    · rw [if_pos hskip] at h
      refine ih h hseen ?_
      obtain ⟨j, hj, hrev⟩ := hrev
      rcases List.mem_cons.mp hj with rfl | hj
      · have hv : (b.event j).value = v := by
          simp only [reversesTo, Bool.and_eq_true, decide_eq_true_eq] at hrev
          exact hrev.1
        rw [hv] at hskip
        exact absurd hskip (not_or.mpr ⟨hpassed, hseen⟩)
      · exact ⟨j, hj, hrev⟩
    · rw [if_neg hskip, Option.bind_eq_bind, Option.bind_eq_some_iff] at h
      obtain ⟨r, hr, h⟩ := h
      cases r with
      | none =>
        refine ih h hseen ?_
        obtain ⟨j, hj, hrev⟩ := hrev
        rcases List.mem_cons.mp hj with rfl | hj
        · rw [reversesTo, (influencerLead_eq_some hr).1] at hrev
          simp at hrev
        · exact ⟨j, hj, hrev⟩
      | some r =>
        obtain ⟨state, lead⟩ := r
        rw [Option.bind_eq_bind, Option.bind_eq_some_iff] at h
        obtain ⟨log', hlog, h⟩ := h
        cases h
        by_cases hv : (b.event i).value = v
        · exact ⟨_, List.mem_cons_self, hv⟩
        · have hseen' : v ∉ seen ++ [(b.event i).value] := by
            simp [hseen, Ne.symm hv]
          have hrest : ∃ j ∈ rest, b.reversesTo env event v j := by
            obtain ⟨j, hj, hrev⟩ := hrev
            rcases List.mem_cons.mp hj with rfl | hj
            · simp [reversesTo, hv] at hrev
            · exact ⟨j, hj, hrev⟩
          obtain ⟨a, ha, hav⟩ := ih hlog hseen' hrest
          exact ⟨a, List.mem_cons_of_mem _ ha, hav⟩

/-! ## Explored witnesses -/

/-- The state and the start of the lead for the explored witness `i`, if the
pair can be reversed. -/
def witnessStart (env : Env) (b : Builder) (event : Event) (i : IID) :
    Option (Option (Nat × Sequence)) := do
  let start ← b.executionSequence.backseq env.fuel b.toContainer i event.iid []
  if start = [] then return none
  else return some (b.unionStateStart (b.executionSequence.idxOf i) i start)

/-- The start of the witness is the same in all extensions of its state. -/
def independentWitness (env : Env) (b : Builder) (event : Event) (i : IID) :
    Bool :=
  (b.witnessStart env event i).any fun s =>
    s.any fun s => b.isIndependentEWLead s.2 event.iid

/-- The witness has a lead that can be explored. -/
def feasibleWitness (env : Env) (b : Builder) (event : Event) (i : IID) : Bool :=
  (b.witnessStart env event i).any fun s =>
    s.any fun s => b.feasibleStart env event s.1 s.2

/-- The lead for the witness `i`, with the answer of
`is_independent_EW_lead`. -/
def witnessLead (env : Env) (b : Builder) (event : Event) (i : IID) :
    Option (Option (Nat × Lead × Bool)) := do
  match ← b.witnessStart env event i with
  | none => return none
  | some (state, start) =>
    let inF := (b.stateAt state).alphaLead.forbidden.disjRV (i, (b.event i).value)
    let lead ← Lead.ofConstraint env.fuel b.toContainer
      (b.getConstraint state event) start inF (b.stateAt state).mem
    return some (state, lead, b.isIndependentEWLead start event.iid)

theorem witnessLead_eq_some {env : Env} {b : Builder} {event : Event} {i : IID}
    {r : Option (Nat × Lead × Bool)}
    (h : b.witnessLead env event i = some r) :
    b.independentWitness env event i = r.any (·.2.2) ∧
      ∀ state lead independent, r = some (state, lead, independent) →
        (b.feasibleWitness env event i ↔ lead.mergedSequence ≠ []) := by
  unfold witnessLead at h
  rw [Option.bind_eq_bind, Option.bind_eq_some_iff] at h
  obtain ⟨s, hstart, h⟩ := h
  unfold independentWitness feasibleWitness
  rw [hstart]
  cases s with
  | none =>
    cases h
    exact ⟨rfl, fun _ _ _ h => by cases h⟩
  | some s =>
    simp only [Option.bind_eq_bind, Option.bind_eq_some_iff] at h
    obtain ⟨lead, hlead, h⟩ := h
    cases h
    refine ⟨rfl, ?_⟩
    rintro state lead' independent ⟨⟩
    exact feasibleStart_iff hlead

/-- The loop looks at the witness `i`. -/
def WitnessPassed (b : Builder) (event : Event) (i : IID) : Prop :=
  (b.event i).value = event.value ∨ event.value ∈ b.covered i

instance (b : Builder) (event : Event) (i : IID) :
    Decidable (b.WitnessPassed event i) := inferInstanceAs (Decidable (_ ∨ _))

/-- The additions of the loop of `backward_analysis_write` to the leads.
`seen` are the reads for which it has covered the value. -/
def writeLog (env : Env) (b : Builder) (event : Event) :
    List IID → List IID → Option (List Addition)
  | _, [] => some []
  | seen, i :: rest => do
    if b.WitnessPassed event i ∨ i ∈ seen then writeLog env b event seen rest
    else
      match ← b.witnessLead env event i with
      | some (state, lead, true) =>
        let log ← writeLog env b event (i :: seen) rest
        return ⟨i, event.value, state, lead⟩ :: log
      | _ => writeLog env b event seen rest

/-- What the loop of `backward_analysis_write` reads and does not change. -/
def analysed (b : Builder) : Builder :=
  { b with
    states := b.states.map fun s => { s with eiLeads := [] }
    coveredReadValues := []
    ewLeads := []
    parallelLoops := 0 }

theorem stateAt_analysed (b : Builder) (i : Nat) :
    b.analysed.stateAt i = { b.stateAt i with eiLeads := [] } := by
  simp only [stateAt, analysed, List.getD_eq_getElem?_getD, List.getElem?_map]
  cases b.states[i]? <;> rfl

theorem unionStateStart_analysed (b : Builder) (idx : Nat) (event : IID)
    (start : Sequence) :
    b.analysed.unionStateStart idx event start = b.unionStateStart idx event start := by
  unfold unionStateStart
  simp only [stateAt_analysed]
  rfl

theorem independentEventInLeads_analysed (b : Builder) (state : Nat) (event : IID) :
    b.analysed.independentEventInLeads state event =
      b.independentEventInLeads state event := by
  unfold independentEventInLeads
  rw [stateAt_analysed]

theorem independentLoop_analysed (b : Builder) (write : IID)
    (exec : List (IID × Option Nat)) (s : Sequence) :
    independentLoop b.analysed write exec s = independentLoop b write exec s := by
  induction exec generalizing s with
  | nil => cases s <;> rfl
  | cons p exec ih =>
    obtain ⟨e, ps⟩ := p
    cases s with
    | nil => rfl
    | cons x s =>
      rw [independentLoop, independentLoop, ih, ih]
      simp only [stateAt_analysed, independentEventInLeads_analysed]
      rfl

theorem witnessStart_analysed (env : Env) (b : Builder) (event : Event) (i : IID) :
    b.analysed.witnessStart env event i = b.witnessStart env event i := by
  unfold witnessStart
  simp only [unionStateStart_analysed]
  rfl

theorem witnessLead_analysed (env : Env) (b : Builder) (event : Event) (i : IID) :
    b.analysed.witnessLead env event i = b.witnessLead env event i := by
  have hstart := witnessStart_analysed env b event i
  have hconstraint (state : Nat) :
      b.analysed.getConstraint state event = b.getConstraint state event := by
    unfold getConstraint
    rw [stateAt_analysed]
    rfl
  unfold witnessLead isIndependentEWLead
  simp only [hstart, hconstraint, independentLoop_analysed, stateAt_analysed]
  rfl

theorem analysed_forbidValueForEiLeads (b : Builder) (state : Nat) (read : IID)
    (value : Value) :
    (b.forbidValueForEiLeads state read value).analysed = b.analysed := by
  unfold forbidValueForEiLeads
  simp only
  split
  · have hstates : ∀ f : State → State,
        (∀ s, { f s with eiLeads := [] } = ({ s with eiLeads := [] } : State)) →
        (b.modifyState state f).analysed = b.analysed := by
      intro f hf
      unfold analysed modifyState
      congr 1
      apply List.ext_getElem?
      intro j
      simp only [List.getElem?_map, List.getElem?_modify]
      split
      · cases b.states[j]? with
        | none => rfl
        | some s => exact congrArg some (hf s)
      · cases b.states[j]? <;> rfl
    exact hstates _ fun _ => rfl
  · rfl

theorem writeLog_congr {env : Env} {b b' : Builder} {event : Event}
    {seen seen' is : List IID} (hlook : b'.analysed = b.analysed)
    (hcovered : ∀ i, event.value ∈ b'.covered i ∨ i ∈ seen' ↔
      event.value ∈ b.covered i ∨ i ∈ seen) :
    writeLog env b' event seen' is = writeLog env b event seen is := by
  induction is generalizing seen seen' with
  | nil => rfl
  | cons i rest ih =>
    have hevent : b'.event i = b.event i := by
      have := congrArg (fun b : Builder => b.event i) hlook
      exact this
    have hlead : b'.witnessLead env event i = b.witnessLead env event i := by
      rw [← witnessLead_analysed, hlook, witnessLead_analysed]
    have hpassed : b'.WitnessPassed event i ∨ i ∈ seen' ↔
        b.WitnessPassed event i ∨ i ∈ seen := by
      unfold WitnessPassed
      rw [hevent, or_assoc, or_assoc, hcovered]
    have hnext : ∀ j, event.value ∈ b'.covered j ∨ j ∈ i :: seen' ↔
        event.value ∈ b.covered j ∨ j ∈ i :: seen := by
      intro j
      have := hcovered j
      simp only [List.mem_cons]
      rw [or_left_comm, this, or_left_comm]
    rw [writeLog, writeLog, hlead, ih hcovered, ih hnext]
    simp only [hpassed]

/-- The builder behind an addition of the loop. -/
def coverWitness (b : Builder) (event : Event) (state : Nat) (i : IID) : Builder :=
  ((b.dropEWLeads state i event.value).forbidValueForEiLeads state i
    event.value).cover i event.value

theorem analysed_coverWitness (b : Builder) (event : Event) (state : Nat) (i : IID) :
    (b.coverWitness event state i).analysed = b.analysed :=
  analysed_forbidValueForEiLeads (b.dropEWLeads state i event.value) state i
    event.value

theorem coveredReadValues_coverWitness (b : Builder) (event : Event) (state : Nat)
    (i : IID) : (b.coverWitness event state i).coveredReadValues =
      (b.cover i event.value).coveredReadValues := by
  have hforbid : ((b.dropEWLeads state i event.value).forbidValueForEiLeads state i
      event.value).coveredReadValues = b.coveredReadValues := by
    unfold forbidValueForEiLeads
    simp only
    split <;> rfl
  unfold coverWitness cover
  simp only [hforbid]

/-- The body of the loop, in terms of the lead for the witness. -/
theorem backwardWriteLoop_cons {env : Env} {b : Builder} {event : Event}
    {acc : Map Nat (List Lead)} {i : IID} {rest : List IID} :
    backwardWriteLoop env event b acc (i :: rest) =
      if b.WitnessPassed event i then backwardWriteLoop env event b acc rest
      else (b.witnessLead env event i).bind fun
        | none => backwardWriteLoop env event b acc rest
        | some (state, lead, true) =>
          backwardWriteLoop env event (b.coverWitness event state i)
            (modify acc state [] (· ++ [lead])) rest
        | some (state, lead, false) =>
          backwardWriteLoop env event (b.pushEWLead state i event.value lead)
            acc rest := by
  rw [backwardWriteLoop]
  by_cases h : b.WitnessPassed event i
  · rw [if_pos h]
    exact if_pos h
  · rw [if_neg h]
    refine (if_neg h).trans ?_
    unfold witnessLead witnessStart
    cases b.executionSequence.backseq env.fuel b.toContainer i event.iid [] with
    | none => rfl
    | some start =>
      simp only [Option.bind_eq_bind, Option.bind_some, Option.pure_def]
      by_cases hstart : start = []
      · simp only [if_pos hstart, Option.bind_some]
      · simp only [if_neg hstart, Option.bind_some, Option.bind_assoc]
        congr 1
        funext lead
        cases b.isIndependentEWLead (b.unionStateStart
          (b.executionSequence.idxOf i) i start).2 event.iid <;> rfl

theorem coverAll_congr {b b' : Builder} {log : List Addition}
    (h : b'.coveredReadValues = b.coveredReadValues) :
    (b'.coverAll log).coveredReadValues = (b.coverAll log).coveredReadValues := by
  induction log generalizing b b' with
  | nil => exact h
  | cons a log ih =>
    have hcover : (b'.cover a.read a.value).coveredReadValues =
        (b.cover a.read a.value).coveredReadValues := by
      show modify b'.coveredReadValues a.read [] (· ++ [a.value]) =
        modify b.coveredReadValues a.read [] (· ++ [a.value])
      rw [h]
    exact ih hcover

/-- The loop of `backward_analysis_write` covers the values of its log and
adds the leads of its log. -/
theorem backwardWriteLoop_spec {env : Env} {b b' : Builder} {event : Event}
    {acc acc' : Map Nat (List Lead)} {is : List IID}
    (h : backwardWriteLoop env event b acc is = some (b', acc')) :
    ∃ log, writeLog env b event [] is = some log ∧
      b'.coveredReadValues = (b.coverAll log).coveredReadValues ∧
      acc' = pushAll acc log := by
  induction is generalizing b acc with
  | nil =>
    cases h
    exact ⟨[], rfl, rfl, rfl⟩
  | cons i rest ih =>
    have hseen : (b.WitnessPassed event i ∨ i ∈ ([] : List IID)) ↔
        b.WitnessPassed event i := by simp
    rw [backwardWriteLoop_cons] at h
    rw [writeLog]
    simp only [hseen]
    split at h
    · next hpassed =>
      rw [if_pos hpassed]
      exact ih h
    · next hpassed =>
      rw [if_neg hpassed]
      rw [Option.bind_eq_some_iff] at h
      obtain ⟨r, hr, h⟩ := h
      rw [hr]
      match r, h with
      | none, h => exact ih h
      | some (state, lead, false), h =>
        obtain ⟨log, hlog, hcovered, hacc⟩ := ih h
        have hkeep : writeLog env (b.pushEWLead state i event.value lead) event []
            rest = writeLog env b event [] rest :=
          writeLog_congr rfl fun _ => Iff.rfl
        exact ⟨log, hkeep ▸ hlog, hcovered.trans (coverAll_congr rfl), hacc⟩
      | some (state, lead, true), h =>
        obtain ⟨log, hlog, hcovered, hacc⟩ := ih h
        have hcover : ∀ j, event.value ∈ (b.coverWitness event state i).covered j ∨
            j ∈ ([] : List IID) ↔ event.value ∈ b.covered j ∨ j ∈ [i] := by
          intro j
          have : (b.coverWitness event state i).covered j =
              (b.cover i event.value).covered j := by
            unfold covered
            rw [coveredReadValues_coverWitness]
          rw [this, covered_cover]
          by_cases hij : i = j
          · simp [hij]
          · simp [hij, Ne.symm hij]
        rw [writeLog_congr (analysed_coverWitness b event state i) hcover] at hlog
        refine ⟨⟨i, event.value, state, lead⟩ :: log, ?_, ?_, hacc⟩
        · show (writeLog env b event [i] rest).bind _ = _
          rw [hlog]
          rfl
        · exact hcovered.trans (coverAll_congr
            (coveredReadValues_coverWitness b event state i))

/-- An addition of the loop comes from a witness that it looks at and whose
start is independent. -/
theorem mem_writeLog {env : Env} {b : Builder} {event : Event}
    {seen is : List IID} {log : List Addition} {a : Addition}
    (h : writeLog env b event seen is = some log) (ha : a ∈ log) :
    a.read ∈ is ∧ ¬b.WitnessPassed event a.read ∧ a.value = event.value ∧
      b.witnessLead env event a.read = some (some (a.state, a.lead, true)) := by
  induction is generalizing seen log with
  | nil =>
    cases h
    cases ha
  | cons i rest ih =>
    have later : ∀ {seen : List IID} {log : List Addition},
        writeLog env b event seen rest = some log → a ∈ log →
        a.read ∈ i :: rest ∧ ¬b.WitnessPassed event a.read ∧
          a.value = event.value ∧
          b.witnessLead env event a.read = some (some (a.state, a.lead, true)) := by
      intro seen log h ha
      obtain ⟨hread, hrest⟩ := ih h ha
      exact ⟨List.mem_cons_of_mem _ hread, hrest⟩
    rw [writeLog] at h
    split at h
    · exact later h ha
    · next hskip =>
      rw [Option.bind_eq_bind, Option.bind_eq_some_iff] at h
      obtain ⟨r, hr, h⟩ := h
      match r, h with
      | none, h => exact later h ha
      | some (state, lead, false), h => exact later h ha
      | some (state, lead, true), h =>
        rw [Option.bind_eq_bind, Option.bind_eq_some_iff] at h
        obtain ⟨log', hlog, h⟩ := h
        cases h
        rcases List.mem_cons.mp ha with rfl | ha
        · exact ⟨List.mem_cons_self, fun hpassed => hskip (.inl hpassed), rfl, hr⟩
        · exact later hlog ha

/-- A witness that the loop looks at has an addition when its start is
independent. -/
theorem exists_mem_writeLog {env : Env} {b : Builder} {event : Event}
    {seen is : List IID} {log : List Addition} {i : IID}
    (h : writeLog env b event seen is = some log) (hi : i ∈ is)
    (hpassed : ¬b.WitnessPassed event i) (hseen : i ∉ seen)
    (hind : b.independentWitness env event i) : ∃ a ∈ log, a.read = i := by
  induction is generalizing seen log with
  | nil => cases hi
  | cons j rest ih =>
    rw [writeLog] at h
    split at h
    · next hskip =>
      rcases List.mem_cons.mp hi with rfl | hi
      · exact absurd hskip (not_or.mpr ⟨hpassed, hseen⟩)
      · exact ih h hi hseen
    · next hskip =>
      rw [Option.bind_eq_bind, Option.bind_eq_some_iff] at h
      obtain ⟨r, hr, h⟩ := h
      have hany := (witnessLead_eq_some hr).1
      have hrest : b.independentWitness env event j = false → i ∈ rest := by
        intro hfalse
        rcases List.mem_cons.mp hi with rfl | hi
        · rw [hind] at hfalse
          cases hfalse
        · exact hi
      match r, h, hany with
      | none, h, hany => exact ih h (hrest hany) hseen
      | some (state, lead, false), h, hany => exact ih h (hrest hany) hseen
      | some (state, lead, true), h, _ =>
        rw [Option.bind_eq_bind, Option.bind_eq_some_iff] at h
        obtain ⟨log', hlog, h⟩ := h
        cases h
        by_cases hij : j = i
        · exact ⟨_, List.mem_cons_self, hij⟩
        · have hi : i ∈ rest := (List.mem_cons.mp hi).resolve_left (Ne.symm hij)
          have hseen' : i ∉ j :: seen := by simp [hseen, Ne.symm hij]
          obtain ⟨a, ha, har⟩ := ih hlog hi hseen'
          exact ⟨a, List.mem_cons_of_mem _ ha, har⟩

/-! ## Covered values have leads -/

/-- The additions of `backward_analysis_read`. -/
def backwardReadAdditions (env : Env) (b : Builder) (event : Event)
    (forbidden : SOPFormula) : Option (List Addition) :=
  let ui := b.unexploredInfluencers env event forbidden
  let ei := b.exploredInfluencers env event forbidden
  readLog env b event (ui.map fun i => (b.event i).value)
    (b.forbidValues event.iid (.ofTerm (event.iid, b.memAt event.object)) ui) ei
    [] ei

/-- The additions of `backward_analysis_write`. -/
def backwardWriteAdditions (env : Env) (b : Builder) (event : Event) :
    Option (List Addition) :=
  writeLog env b event [] (b.exploredWitnesses env event)

/-- Between `b` and `b'` values are covered only along with an addition of
`log` whose lead is in `leads` and can be explored. -/
def CoversFeasibly (b b' : Builder) (leads : Map Nat (List Lead))
    (log : List Addition) : Prop :=
  ∀ r v, v ∈ b'.covered r → v ∉ b.covered r →
    ∃ a ∈ log, a.read = r ∧ a.value = v ∧ a.lead ∈ getD leads a.state [] ∧
      a.lead.mergedSequence ≠ []

/-- What `backward_analysis_read` promises of the values of explored
influencers: it covers a value only with a lead that can be explored, and it
finds such a lead when some influencer with the value has one. -/
def ReadCoverage (env : Env) (b : Builder) (event : Event)
    (forbidden : SOPFormula) (b' : Builder) (leads : Map Nat (List Lead)) : Prop :=
  ∃ log, b.backwardReadAdditions env event forbidden = some log ∧
    b.CoversFeasibly b' leads log ∧
    ∀ i ∈ b.exploredInfluencers env event forbidden,
      ¬b.Passed event ((b.unexploredInfluencers env event forbidden).map
        fun j => (b.event j).value) (b.event i).value →
      b.feasible env event i →
      ∃ a ∈ log, a.value = (b.event i).value ∧ a.lead ∈ getD leads a.state [] ∧
        a.lead.mergedSequence ≠ []

/-- The same for `backward_analysis_write` and the explored witnesses whose
start is independent. -/
def WriteCoverage (env : Env) (b : Builder) (event : Event) (b' : Builder)
    (leads : Map Nat (List Lead)) : Prop :=
  ∃ log, b.backwardWriteAdditions env event = some log ∧
    b.CoversFeasibly b' leads log ∧
    ∀ i ∈ b.exploredWitnesses env event, ¬b.WitnessPassed event i →
      b.independentWitness env event i → b.feasibleWitness env event i →
      ∃ a ∈ log, a.read = i ∧ a.lead ∈ getD leads a.state [] ∧
        a.lead.mergedSequence ≠ []

/-- For every value that the loop looks at, the first influencer that can be
reversed has a lead that can be explored. -/
def FirstFeasible (env : Env) (b : Builder) (event : Event)
    (forbidden : SOPFormula) : Prop :=
  ∀ v, ¬b.Passed event ((b.unexploredInfluencers env event forbidden).map
      fun j => (b.event j).value) v →
    ∀ i, (b.exploredInfluencers env event forbidden).find?
      (b.reversesTo env event v) = some i → b.feasible env event i

instance (env : Env) (b : Builder) (event : Event) (forbidden : SOPFormula) :
    Decidable (b.FirstFeasible env event forbidden) :=
  decidable_of_iff
    (∀ i ∈ b.exploredInfluencers env event forbidden,
      ¬b.Passed event ((b.unexploredInfluencers env event forbidden).map
        fun j => (b.event j).value) (b.event i).value →
      (b.exploredInfluencers env event forbidden).find?
        (b.reversesTo env event (b.event i).value) = some i →
      b.feasible env event i) <| by
    constructor
    · intro h v hpassed i hfind
      have hv : (b.event i).value = v := by
        have := List.find?_some hfind
        simp only [reversesTo, Bool.and_eq_true, decide_eq_true_eq] at this
        exact this.1
      exact h i (List.mem_of_find?_eq_some hfind) (hv ▸ hpassed) (hv ▸ hfind)
    · intro h i _ hpassed hfind
      exact h _ hpassed i hfind

/-- Every independent witness that the loop looks at has a lead that can be
explored. -/
def WitnessesFeasible (env : Env) (b : Builder) (event : Event) : Prop :=
  ∀ i ∈ b.exploredWitnesses env event, ¬b.WitnessPassed event i →
    b.independentWitness env event i → b.feasibleWitness env event i

theorem reversible_of_feasible {env : Env} {b : Builder} {event : Event} {i : IID}
    (h : b.feasible env event i) : b.reversible env event i := by
  unfold feasible at h
  unfold reversible
  cases hstart : b.influencerStart env event i with
  | none =>
    rw [hstart] at h
    cases h
  | some s =>
    rw [hstart] at h
    cases s with
    | none => cases h
    | some s => rfl

theorem readCoverage_iff {env : Env} {b b' : Builder} {event : Event}
    {forbidden : SOPFormula} {leads : Map Nat (List Lead)}
    (h : backwardAnalysisRead env b event forbidden = some (b', leads)) :
    b.ReadCoverage env event forbidden b' leads ↔
      b.FirstFeasible env event forbidden := by
  unfold backwardAnalysisRead at h
  simp only [backwardReadLoop_eq, Option.map_eq_some_iff] at h
  obtain ⟨log, hlog, h⟩ := h
  cases h
  have hadditions : b.backwardReadAdditions env event forbidden = some log := hlog
  constructor
  · rintro ⟨log', hlog', hcovers, _⟩ v hpassed i hfind
    obtain rfl : log' = log := by
      rw [hadditions] at hlog'
      exact (Option.some.inj hlog').symm
    -- the loop covers the value, so there is an addition for it
    have hrev := List.find?_some hfind
    obtain ⟨a, ha, hav⟩ := exists_mem_readLog hlog hpassed (List.not_mem_nil)
      ⟨i, List.mem_of_find?_eq_some hfind, hrev⟩
    have hread := (mem_readLog hlog ha).1
    have hnew : v ∈ (b.coverAll log').covered event.iid :=
      mem_covered_coverAll.mpr (.inr ⟨a, ha, hread, hav⟩)
    have hold : v ∉ b.covered event.iid := fun hv => hpassed (.inr (.inr hv))
    obtain ⟨a', ha', _, hav', _, hmerged⟩ := hcovers _ _ hnew hold
    -- and it comes from the influencer `i`
    obtain ⟨_, _, _, j, hfind', hlead⟩ := mem_readLog hlog ha'
    rw [hav', hfind] at hfind'
    cases hfind'
    exact ((influencerLead_eq_some hlead).2 _ _ rfl).mpr hmerged
  · intro hfirst
    have hmerged : ∀ a ∈ log, a.lead ∈ getD (pushAll [] log) a.state [] ∧
        a.lead.mergedSequence ≠ [] := by
      intro a ha
      obtain ⟨_, hpassed, _, j, hfind, hlead⟩ := mem_readLog hlog ha
      have hfeasible := hfirst _ hpassed j hfind
      exact ⟨mem_pushAll.mpr (.inr ⟨a, ha, rfl, rfl⟩),
        ((influencerLead_eq_some hlead).2 _ _ rfl).mp hfeasible⟩
    refine ⟨log, hadditions, ?_, ?_⟩
    · intro r v hnew hold
      obtain ⟨a, ha, har, hav⟩ := (mem_covered_coverAll.mp hnew).resolve_left hold
      exact ⟨a, ha, har, hav, hmerged a ha⟩
    · intro i hi hpassed hfeasible
      have hrev : b.reversesTo env event (b.event i).value i := by
        simp [reversesTo, reversible_of_feasible hfeasible]
      obtain ⟨a, ha, hav⟩ := exists_mem_readLog hlog hpassed (List.not_mem_nil)
        ⟨i, hi, hrev⟩
      exact ⟨a, ha, hav, hmerged a ha⟩

theorem writeCoverage_iff {env : Env} {b b' : Builder} {event : Event}
    {leads : Map Nat (List Lead)}
    (h : backwardAnalysisWrite env b event = some (b', leads)) :
    b.WriteCoverage env event b' leads ↔ b.WitnessesFeasible env event := by
  obtain ⟨log, hlog, hcovered, rfl⟩ := backwardWriteLoop_spec h
  have hadditions : b.backwardWriteAdditions env event = some log := by
    refine Eq.trans ?_ hlog
    exact writeLog_congr rfl fun _ => Iff.rfl
  have hmem : ∀ r v, v ∈ b'.covered r ↔ v ∈ (b.coverAll log).covered r := by
    intro r v
    have hkeep : b'.coveredReadValues = (b.coverAll log).coveredReadValues :=
      hcovered.trans (coverAll_congr rfl)
    unfold covered
    rw [hkeep]
  constructor
  · rintro ⟨log', hlog', hcovers, _⟩ i hi hpassed hind
    obtain rfl : log' = log := by
      rw [hadditions] at hlog'
      exact (Option.some.inj hlog').symm
    obtain ⟨a, ha, har⟩ := exists_mem_writeLog hadditions hi hpassed
      (List.not_mem_nil) hind
    have hav := (mem_writeLog hadditions ha).2.2.1
    have hnew : event.value ∈ b'.covered i :=
      (hmem _ _).mpr (mem_covered_coverAll.mpr (.inr ⟨a, ha, har, hav⟩))
    have hold : event.value ∉ b.covered i := fun hv => hpassed (.inr hv)
    obtain ⟨a', ha', har', _, _, hmerged⟩ := hcovers _ _ hnew hold
    have hlead := (mem_writeLog hadditions ha').2.2.2
    rw [har'] at hlead
    exact ((witnessLead_eq_some hlead).2 _ _ _ rfl).mpr hmerged
  · intro hfeasible
    have hmerged : ∀ a ∈ log, a.lead ∈ getD (pushAll [] log) a.state [] ∧
        a.lead.mergedSequence ≠ [] := by
      intro a ha
      obtain ⟨hread, hpassed, _, hlead⟩ := mem_writeLog hadditions ha
      obtain ⟨hind, hmerge⟩ := witnessLead_eq_some hlead
      exact ⟨mem_pushAll.mpr (.inr ⟨a, ha, rfl, rfl⟩),
        (hmerge _ _ _ rfl).mp (hfeasible _ hread hpassed hind)⟩
    refine ⟨log, hadditions, ?_, ?_⟩
    · intro r v hnew hold
      obtain ⟨a, ha, har, hav⟩ :=
        (mem_covered_coverAll.mp ((hmem r v).mp hnew)).resolve_left hold
      exact ⟨a, ha, har, hav, hmerged a ha⟩
    · intro i hi hpassed hind _
      obtain ⟨a, ha, har⟩ := exists_mem_writeLog hadditions hi hpassed
        (List.not_mem_nil) hind
      exact ⟨a, ha, har, hmerged a ha⟩

/-- When the backward analysis covers values only with leads that can be
explored: the first influencer of each value in the order of enumeration, and
each independent witness, must have such a lead. -/
theorem coversFeasibly_iff (env : Env) (b b' : Builder) (event : Event)
    (forbidden : SOPFormula) (leads : Map Nat (List Lead)) :
    (backwardAnalysisRead env b event forbidden = some (b', leads) →
      (b.ReadCoverage env event forbidden b' leads ↔
        b.FirstFeasible env event forbidden)) ∧
    (backwardAnalysisWrite env b event = some (b', leads) →
      (b.WriteCoverage env event b' leads ↔ b.WitnessesFeasible env event)) :=
  ⟨readCoverage_iff, writeCoverage_iff⟩

/-! Two threads write the value `1`, a third one loads it. -/

/-- Thread 1 stores `1` and `2` to `x`, thread 2 increments `x` and loads it,
thread 3 loads it. -/
def sameValueProgram : Program := fun code results =>
  let x := globalInt 1
  match code, results.length with
  | 0, 0 | 1, 0 | 2, 0 | 3, 0 => .skip
  | 0, n => if n ≤ 3 then .spawn n else .ret
  | 1, 1 => .store x 1
  | 1, 2 => .store x 2
  | 2, 1 => .rmw .add x 1
  | 2, 2 => .load x
  | 3, 1 => .load x
  | _, _ => .ret

theorem coversFeasibly_iff_sameValue :
    ∃ b b' leads it, Interp.Reachable (.inOrder 60) sameValueProgram b it ∧
      backwardAnalysisRead (.inOrder 60) b (b.event ⟨3, 1⟩) b.forbidden =
        some (b', leads) ∧
      b.ReadCoverage (.inOrder 60) (b.event ⟨3, 1⟩) b.forbidden b' leads ∧
      b'.covered ⟨3, 1⟩ ≠ b.covered ⟨3, 1⟩ := by
  have hrun : ((Interp.advance (.inOrder 60) sameValueProgram 97 (construct false)
      {}).any fun r =>
        r.1.FirstFeasible (.inOrder 60) (r.1.event ⟨3, 1⟩) r.1.forbidden &&
        (backwardAnalysisRead (.inOrder 60) r.1 (r.1.event ⟨3, 1⟩)
          r.1.forbidden).any fun s => s.1.covered ⟨3, 1⟩ ≠ r.1.covered ⟨3, 1⟩) =
      true := by decide +kernel
  rw [Option.any_eq_true] at hrun
  obtain ⟨⟨b, it⟩, hadvance, hrun⟩ := hrun
  rw [Bool.and_eq_true, Option.any_eq_true] at hrun
  obtain ⟨hfirst, ⟨b', leads⟩, hread, hcovered⟩ := hrun
  exact ⟨b, b', leads, it, (Interp.Reachable.start false).advance hadvance, hread,
    ((coversFeasibly_iff _ _ _ _ _ _).1 hread).mpr (of_decide_eq_true hfirst),
    of_decide_eq_true hcovered⟩

/-- The load finds two writes of the value `1`.  The first one has no lead that
can be explored, and its value is covered all the same. -/
theorem not_coversFeasibly :
    ∃ b b' leads it, Interp.Reachable (.inOrder 60) sameValueProgram b it ∧
      ⟨3, 1⟩ ∈ b.enabled ∧
      backwardAnalysisRead (.inOrder 60) b (b.event ⟨3, 1⟩) b.forbidden =
        some (b', leads) ∧
      b.feasible (.inOrder 60) (b.event ⟨3, 1⟩) ⟨2, 2⟩ ∧
      ¬b.ReadCoverage (.inOrder 60) (b.event ⟨3, 1⟩) b.forbidden b' leads := by
  have hrun : ((Interp.advance (.inOrder 60) sameValueProgram 64 (construct false)
      {}).any fun r => ⟨3, 1⟩ ∈ r.1.enabled &&
        (backwardAnalysisRead (.inOrder 60) r.1 (r.1.event ⟨3, 1⟩)
          r.1.forbidden).isSome &&
        r.1.feasible (.inOrder 60) (r.1.event ⟨3, 1⟩) ⟨2, 2⟩ &&
        ¬r.1.FirstFeasible (.inOrder 60) (r.1.event ⟨3, 1⟩) r.1.forbidden) =
      true := by decide +kernel
  rw [Option.any_eq_true] at hrun
  obtain ⟨⟨b, it⟩, hadvance, hrun⟩ := hrun
  simp only [Bool.and_eq_true, decide_eq_true_eq, Option.isSome_iff_exists] at hrun
  obtain ⟨⟨⟨henabled, ⟨b', leads⟩, hread⟩, hfeasible⟩, hfirst⟩ := hrun
  refine ⟨b, b', leads, it, (Interp.Reachable.start false).advance hadvance, henabled,
    hread, hfeasible, fun hcoverage => ?_⟩
  exact hfirst ((readCoverage_iff hread).mp hcoverage)

end Builder

end ViEqui
