import Mathlib.Data.List.Dedup
import ViEqui.Coverage
import ViEqui.CoveredValues

/-!
# The loop over the explored witnesses

The loop of `backward_analysis_write` treats each explored witness on its own:
an iteration writes to the covered values and the pending leads of its read,
and to the leads of the influencers of its read, and to nothing else.

* `witnessStep`: one iteration.
* `backwardWriteLoop_spares`, `backwardWriteLoop_at`: what the loop does to a
  read is what the iteration for that read does.
* `mem_backwardWriteLoop`: the leads that it collects.
* `updateLeads_write`: the loop in `update_leads`.
-/

namespace ViEqui

open AssocMap

namespace Builder

/-! ## What belongs to a read -/

/-- `EW_leads[state][read][value]`. -/
def pendingLeads (b : Builder) (state : Nat) (read : IID) (value : Value) :
    List Lead :=
  getD (getD (getD b.ewLeads state []) read []) value []

/-- The covered values and the pending leads of the read `i` are the same, and
so are the states whose leads for the influencers of `i` are kept. -/
structure SparesRead (b b' : Builder) (i : IID) : Prop where
  covered : b'.covered i = b.covered i
  pending : ∀ state value, b'.pendingLeads state i value = b.pendingLeads state i value
  state : ∀ s, (b.stateAt s).fwdRead = i → b'.stateAt s = b.stateAt s

theorem SparesRead.refl (b : Builder) (i : IID) : b.SparesRead b i :=
  ⟨rfl, fun _ _ => rfl, fun _ _ => rfl⟩

theorem SparesRead.trans {b b1 b2 : Builder} {i : IID} (h : b.SparesRead b1 i)
    (h' : b1.SparesRead b2 i) : b.SparesRead b2 i where
  covered := h'.covered.trans h.covered
  pending state value := (h'.pending state value).trans (h.pending state value)
  state s hs := by
    have h1 := h.state s hs
    rw [← h1] at hs
    exact (h'.state s hs).trans h1

/-! ## The writes of an iteration -/

/-- `forbid_value_for_ei_leads`, on one state. -/
def forbidEiLeads (read : IID) (value : Value) (s : State) : State :=
  if s.performedFwdAnalysis && s.fwdRead = read then
    { s with
      eiLeads := s.eiLeads.map fun e =>
        (e.1, e.2.map fun l => l.withForbidden (l.forbidden.disjRV (read, value))) }
  else s

theorem forbidEiLeads_of_ne {read : IID} {s : State} (h : s.fwdRead ≠ read)
    (value : Value) : forbidEiLeads read value s = s :=
  if_neg (by simp [h])

theorem stateAt_forbidValueForEiLeads (b : Builder) (state t : Nat) (read : IID)
    (value : Value) :
    (b.forbidValueForEiLeads state read value).stateAt t =
      if state = t then forbidEiLeads read value (b.stateAt t) else b.stateAt t := by
  unfold forbidValueForEiLeads forbidEiLeads
  simp only
  by_cases hstate : state = t
  · subst hstate
    rw [if_pos rfl]
    split
    · next htest =>
      have hlt : state < b.states.length := by
        by_contra hge
        rw [stateAt, List.getD_eq_getElem?_getD, List.getElem?_eq_none (by omega)] at htest
        cases htest
      rw [stateAt_modifyState_self hlt]
    · rfl
  · rw [if_neg hstate]
    split
    · exact stateAt_modifyState_ne hstate
    · rfl

theorem covered_coverWitness (b : Builder) (event : Event) (state : Nat) (i j : IID) :
    (b.coverWitness event state i).covered j =
      if i = j then b.covered j ++ [event.value] else b.covered j := by
  rw [← covered_cover]
  unfold covered
  rw [coveredReadValues_coverWitness]

theorem stateAt_coverWitness (b : Builder) (event : Event) (state t : Nat) (i : IID) :
    (b.coverWitness event state i).stateAt t =
      if state = t then forbidEiLeads i event.value (b.stateAt t) else b.stateAt t :=
  stateAt_forbidValueForEiLeads (b.dropEWLeads state i event.value) state t i event.value

theorem getD_erase {κ ν : Type} [DecidableEq κ] (m : Map κ (List ν)) (k k' : κ) :
    getD (erase m k) k' [] = if k = k' then [] else getD m k' [] := by
  induction m with
  | nil => simp [erase, getD]
  | cons e m ih =>
    obtain ⟨k₀, v₀⟩ := e
    by_cases h₀ : k₀ = k
    · subst h₀
      have hskip : erase ((k₀, v₀) :: m) k₀ = erase m k₀ := by simp [erase]
      rw [hskip, ih]
      split
      · rfl
      · next hne => simp [getD, find?, hne]
    · have hkeep : erase ((k₀, v₀) :: m) k = (k₀, v₀) :: erase m k := by
        simp [erase, h₀]
      rw [hkeep]
      by_cases hk : k₀ = k'
      · subst hk
        simp [getD, find?, Ne.symm h₀]
      · have htail : ∀ m' : Map κ (List ν), getD ((k₀, v₀) :: m') k' [] = getD m' k' [] := by
          intro m'
          simp [getD, find?, hk]
        rw [htail, htail, ih]

theorem pendingLeads_coverWitness (b : Builder) (event : Event) (state state' : Nat)
    (i j : IID) (value : Value) :
    (b.coverWitness event state i).pendingLeads state' j value =
      if state = state' ∧ i = j ∧ event.value = value then []
      else b.pendingLeads state' j value := by
  have hkeep : (b.coverWitness event state i).ewLeads =
      (b.dropEWLeads state i event.value).ewLeads := by
    unfold coverWitness forbidValueForEiLeads
    simp only
    split <;> rfl
  unfold pendingLeads
  rw [hkeep]
  unfold dropEWLeads
  rw [getD_modify]
  by_cases hstate : state = state'
  · rw [if_pos hstate, getD_modify]
    by_cases hi : i = j
    · rw [if_pos hi, getD_erase]
      by_cases hvalue : event.value = value
      · rw [if_pos hvalue, if_pos ⟨hstate, hi, hvalue⟩]
      · rw [if_neg hvalue, if_neg fun h => hvalue h.2.2]
    · rw [if_neg hi, if_neg fun h => hi h.2.1]
  · rw [if_neg hstate, if_neg fun h => hstate h.1]

theorem pendingLeads_pushEWLead (b : Builder) (state state' : Nat) (i j : IID)
    (value value' : Value) (lead : Lead) :
    (b.pushEWLead state i value lead).pendingLeads state' j value' =
      if state = state' ∧ i = j ∧ value = value' then
        b.pendingLeads state' j value' ++ [lead]
      else b.pendingLeads state' j value' := by
  unfold pendingLeads pushEWLead
  rw [getD_modify]
  by_cases hstate : state = state'
  · rw [if_pos hstate, getD_modify]
    by_cases hi : i = j
    · rw [if_pos hi, getD_modify]
      by_cases hvalue : value = value'
      · rw [if_pos hvalue, if_pos ⟨hstate, hi, hvalue⟩]
      · rw [if_neg hvalue, if_neg fun h => hvalue h.2.2]
    · rw [if_neg hi, if_neg fun h => hi h.2.1]
  · rw [if_neg hstate, if_neg fun h => hstate h.1]

/-! ## One iteration -/

/-- The iteration of the loop at the read `i`, apart from the lead that it
collects. -/
def witnessStep (env : Env) (b : Builder) (event : Event) (i : IID) : Builder :=
  if b.WitnessPassed event i then b
  else
    match b.witnessLead env event i with
    | some (some (state, _, true)) => b.coverWitness event state i
    | some (some (state, lead, false)) => b.pushEWLead state i event.value lead
    | _ => b

/-- An iteration leaves the other reads alone. -/
theorem sparesRead_witnessStep {env : Env} {b : Builder} {event : Event} {i j : IID}
    (hij : i ≠ j) : b.SparesRead (b.witnessStep env event i) j := by
  unfold witnessStep
  split
  · exact .refl b j
  · split
    · next state _ _ =>
      refine ⟨?_, fun state' value => ?_, fun s hs => ?_⟩
      · rw [covered_coverWitness, if_neg hij]
      · rw [pendingLeads_coverWitness, if_neg fun h => hij h.2.1]
      · have hne : (b.stateAt s).fwdRead ≠ i := by
          rw [hs]
          exact Ne.symm hij
        rw [stateAt_coverWitness, forbidEiLeads_of_ne hne, ite_self]
    · refine ⟨rfl, fun state' value => ?_, fun _ _ => rfl⟩
      rw [pendingLeads_pushEWLead, if_neg fun h => hij h.2.1]
    · exact .refl b j

theorem analysed_witnessStep (env : Env) (b : Builder) (event : Event) (i : IID) :
    (b.witnessStep env event i).analysed = b.analysed := by
  unfold witnessStep
  split
  · rfl
  · split
    · exact analysed_coverWitness b event _ i
    · rfl
    · rfl

theorem witnessPassed_congr {b b' : Builder} {event : Event} {i : IID}
    (hlook : b'.analysed = b.analysed) (hcovered : b'.covered i = b.covered i) :
    b'.WitnessPassed event i ↔ b.WitnessPassed event i := by
  have hevent : b'.event i = b.event i := by
    have := congrArg (fun b : Builder => b.event i) hlook
    exact this
  unfold WitnessPassed
  rw [hevent, hcovered]

theorem witnessLead_congr {env : Env} {b b' : Builder} {event : Event} {i : IID}
    (hlook : b'.analysed = b.analysed) :
    b'.witnessLead env event i = b.witnessLead env event i := by
  rw [← witnessLead_analysed, hlook, witnessLead_analysed]

/-- The iteration at a read depends on what belongs to that read. -/
theorem SparesRead.witnessStep {env : Env} {b b' : Builder} {event : Event} {i : IID}
    (h : b.SparesRead b' i) (hlook : b'.analysed = b.analysed) :
    (b.witnessStep env event i).SparesRead (b'.witnessStep env event i) i := by
  have hpassed : b'.WitnessPassed event i ↔ b.WitnessPassed event i :=
    witnessPassed_congr hlook h.covered
  unfold Builder.witnessStep
  rw [witnessLead_congr hlook]
  by_cases hp : b.WitnessPassed event i
  · rw [if_pos hp, if_pos (hpassed.mpr hp)]
    exact h
  · rw [if_neg hp, if_neg fun hp' => hp (hpassed.mp hp')]
    split
    · next state _ _ =>
      refine ⟨?_, fun state' value => ?_, fun s hs => ?_⟩
      · rw [covered_coverWitness, covered_coverWitness, h.covered]
      · rw [pendingLeads_coverWitness, pendingLeads_coverWitness, h.pending]
      · have hread : (b.stateAt s).fwdRead = i := by
          rw [stateAt_coverWitness] at hs
          unfold forbidEiLeads at hs
          split at hs
          · split at hs <;> exact hs
          · exact hs
        rw [stateAt_coverWitness, stateAt_coverWitness, h.state s hread]
    · refine ⟨h.covered, fun state' value => ?_, h.state⟩
      rw [pendingLeads_pushEWLead, pendingLeads_pushEWLead, h.pending]
    · exact h

/-- The loop is the iteration of its step. -/
theorem backwardWriteLoop_step {env : Env} {b b' : Builder} {event : Event}
    {acc acc' : Map Nat (List Lead)} {i : IID} {rest : List IID}
    (h : backwardWriteLoop env event b acc (i :: rest) = some (b', acc')) :
    ∃ acc1, backwardWriteLoop env event (b.witnessStep env event i) acc1 rest =
      some (b', acc') := by
  rw [backwardWriteLoop_cons] at h
  unfold witnessStep
  split at h
  · next hpassed =>
    rw [if_pos hpassed]
    exact ⟨_, h⟩
  · next hpassed =>
    rw [if_neg hpassed]
    rw [Option.bind_eq_some_iff] at h
    obtain ⟨r, hr, h⟩ := h
    rw [hr]
    match r, h with
    | none, h => exact ⟨_, h⟩
    | some (state, lead, false), h => exact ⟨_, h⟩
    | some (state, lead, true), h => exact ⟨_, h⟩

/-! ## The loop -/

theorem analysed_backwardWriteLoop {env : Env} {b b' : Builder} {event : Event}
    {acc acc' : Map Nat (List Lead)} {is : List IID}
    (h : backwardWriteLoop env event b acc is = some (b', acc')) :
    b'.analysed = b.analysed := by
  induction is generalizing b acc with
  | nil =>
    cases h
    rfl
  | cons i rest ih =>
    obtain ⟨acc1, h⟩ := backwardWriteLoop_step h
    exact (ih h).trans (analysed_witnessStep env b event i)

/-- The iterations at other reads leave a read alone. -/
theorem backwardWriteLoop_spares {env : Env} {b b' : Builder} {event : Event}
    {acc acc' : Map Nat (List Lead)} {is : List IID} {j : IID} (hj : j ∉ is)
    (h : backwardWriteLoop env event b acc is = some (b', acc')) :
    b.SparesRead b' j := by
  induction is generalizing b acc with
  | nil =>
    cases h
    exact .refl _ j
  | cons i rest ih =>
    have hij : i ≠ j := fun hij => hj (hij ▸ List.mem_cons_self)
    have hrest : j ∉ rest := fun hmem => hj (List.mem_cons_of_mem _ hmem)
    obtain ⟨acc1, h⟩ := backwardWriteLoop_step h
    exact (sparesRead_witnessStep hij).trans (ih hrest h)

/-- What the loop does to a read is what its iteration does. -/
theorem backwardWriteLoop_at {env : Env} {b b' : Builder} {event : Event}
    {acc acc' : Map Nat (List Lead)} {is : List IID} {j : IID} (hnodup : is.Nodup)
    (hj : j ∈ is) (h : backwardWriteLoop env event b acc is = some (b', acc')) :
    (b.witnessStep env event j).SparesRead b' j := by
  induction is generalizing b acc with
  | nil => cases hj
  | cons i rest ih =>
    obtain ⟨hnotin, hrestNodup⟩ := List.nodup_cons.mp hnodup
    obtain ⟨acc1, h⟩ := backwardWriteLoop_step h
    by_cases hij : i = j
    · subst hij
      exact backwardWriteLoop_spares hnotin h
    · have hrest : j ∈ rest := (List.mem_cons.mp hj).resolve_left (Ne.symm hij)
      have hstep : b.SparesRead (b.witnessStep env event i) j :=
        sparesRead_witnessStep hij
      exact (hstep.witnessStep (analysed_witnessStep env b event i)).trans
        (ih hrestNodup hrest h)

/-- The loop makes a lead for the read `i`: it has another value, the value of
the write is not covered for it, and the two events can be reversed. -/
def CallsForLead (env : Env) (b : Builder) (event : Event) (i : IID) : Prop :=
  ¬b.WitnessPassed event i ∧ b.witnessStart env event i ≠ some none

theorem witnessLead_of_not_callsForLead {env : Env} {b : Builder} {event : Event}
    {i : IID} {r : Option (Nat × Lead × Bool)} (hcalls : ¬b.CallsForLead env event i)
    (hpassed : ¬b.WitnessPassed event i) (hr : b.witnessLead env event i = some r) :
    r = none := by
  have hstart : b.witnessStart env event i = some none :=
    not_not.mp fun hstart => hcalls ⟨hpassed, hstart⟩
  unfold witnessLead at hr
  rw [hstart] at hr
  cases hr
  rfl

/-- Without a read that calls for a lead the loop changes nothing. -/
theorem backwardWriteLoop_untempted {env : Env} {b b' : Builder} {event : Event}
    {acc acc' : Map Nat (List Lead)} {is : List IID}
    (hquiet : ∀ i ∈ is, ¬b.CallsForLead env event i)
    (h : backwardWriteLoop env event b acc is = some (b', acc')) :
    b' = b ∧ acc' = acc := by
  induction is with
  | nil =>
    cases h
    exact ⟨rfl, rfl⟩
  | cons i rest ih =>
    have hrest := ih fun j hj => hquiet j (List.mem_cons_of_mem _ hj)
    rw [backwardWriteLoop_cons] at h
    split at h
    · exact hrest h
    · next hpassed =>
      rw [Option.bind_eq_some_iff] at h
      obtain ⟨r, hr, h⟩ := h
      obtain rfl := witnessLead_of_not_callsForLead (hquiet i List.mem_cons_self) hpassed hr
      exact hrest h

theorem witnessLead_of_callsForLead {env : Env} {b : Builder} {event : Event} {i : IID}
    {r : Option (Nat × Lead × Bool)} (hcalls : b.CallsForLead env event i)
    (hr : b.witnessLead env event i = some r) : r ≠ none := by
  unfold witnessLead at hr
  rw [Option.bind_eq_bind, Option.bind_eq_some_iff] at hr
  obtain ⟨s, hstart, hr⟩ := hr
  cases s with
  | none => exact absurd hstart hcalls.2
  | some s =>
    simp only [Option.bind_eq_bind, Option.bind_eq_some_iff] at hr
    obtain ⟨lead, _, hr⟩ := hr
    cases hr
    exact nofun

/-- The lead of a witness that the loop looks at is there. -/
theorem witnessLead_of_backwardWriteLoop {env : Env} {b b' : Builder} {event : Event}
    {acc acc' : Map Nat (List Lead)} {is : List IID} {j : IID}
    (hnodup : is.Nodup) (hj : j ∈ is) (hpassed : ¬b.WitnessPassed event j)
    (h : backwardWriteLoop env event b acc is = some (b', acc')) :
    ∃ r, b.witnessLead env event j = some r := by
  induction is generalizing b acc with
  | nil => cases hj
  | cons i rest ih =>
    obtain ⟨hnotin, hrestNodup⟩ := List.nodup_cons.mp hnodup
    by_cases hij : i = j
    · subst hij
      rw [backwardWriteLoop_cons, if_neg hpassed, Option.bind_eq_some_iff] at h
      obtain ⟨r, hr, _⟩ := h
      exact ⟨r, hr⟩
    · have hrest : j ∈ rest := (List.mem_cons.mp hj).resolve_left (Ne.symm hij)
      have hstep : b.SparesRead (b.witnessStep env event i) j :=
        sparesRead_witnessStep hij
      have hlook := analysed_witnessStep env b event i
      obtain ⟨acc1, h⟩ := backwardWriteLoop_step h
      rw [← witnessPassed_congr hlook hstep.covered] at hpassed
      obtain ⟨r, hr⟩ := ih hrestNodup hrest hpassed h
      exact ⟨r, (witnessLead_congr hlook).symm.trans hr⟩

/-- A read that calls for a lead gets the value covered, or a pending lead for
it. -/
theorem backwardWriteLoop_tempted {env : Env} {b b' : Builder} {event : Event}
    {acc acc' : Map Nat (List Lead)} {is : List IID} {j : IID} (hnodup : is.Nodup)
    (hj : j ∈ is) (hcalls : b.CallsForLead env event j)
    (h : backwardWriteLoop env event b acc is = some (b', acc')) :
    event.value ∈ b'.covered j ∨
      ∃ state, b'.pendingLeads state j event.value ≠
        b.pendingLeads state j event.value := by
  obtain ⟨r, hr⟩ := witnessLead_of_backwardWriteLoop hnodup hj hcalls.1 h
  have hat := backwardWriteLoop_at hnodup hj h
  have hcovered := hat.covered
  have hpending := hat.pending
  unfold witnessStep at hcovered hpending
  rw [if_neg hcalls.1, hr] at hcovered hpending
  match r, hr with
  | none, hr => exact absurd rfl (witnessLead_of_callsForLead hcalls hr)
  | some (state, lead, true), _ =>
    left
    rw [hcovered, covered_coverWitness, if_pos rfl]
    exact List.mem_append_right _ List.mem_cons_self
  | some (state, lead, false), _ =>
    right
    refine ⟨state, ?_⟩
    rw [hpending, pendingLeads_pushEWLead, if_pos ⟨rfl, rfl, rfl⟩]
    simp

/-! ## The leads -/

theorem mem_keys_pushAll {log : List Addition} {acc : Map Nat (List Lead)} {s : Nat} :
    s ∈ (pushAll acc log).map Prod.fst ↔
      s ∈ acc.map Prod.fst ∨ ∃ a ∈ log, a.state = s := by
  induction log generalizing acc with
  | nil => simp [pushAll]
  | cons a log ih =>
    have hcons : pushAll acc (a :: log) =
        pushAll (modify acc a.state [] (· ++ [a.lead])) log := rfl
    rw [hcons, ih, AssocMap.modify, mem_keys_insert]
    simp only [List.exists_mem_cons_iff, or_assoc, or_left_comm, eq_comm]

theorem wf_pushAll {log : List Addition} {acc : Map Nat (List Lead)} (h : Wf acc) :
    Wf (pushAll acc log) := by
  induction log generalizing acc with
  | nil => exact h
  | cons a log ih => exact ih (h.insert _ _)

/-- The lead for the witness `i` goes to the state `s` at once. -/
def AddsLead (env : Env) (b : Builder) (event : Event) (i : IID) (s : Nat) (l : Lead) :
    Prop :=
  ¬b.WitnessPassed event i ∧ b.witnessLead env event i = some (some (s, l, true))

/-- The leads that the loop collects, and the states that it collects leads
for. -/
theorem mem_backwardWriteLoop {env : Env} {b b' : Builder} {event : Event}
    {acc : Map Nat (List Lead)} {is : List IID}
    (h : backwardWriteLoop env event b [] is = some (b', acc)) :
    (∀ s l, l ∈ getD acc s [] ↔ ∃ i ∈ is, b.AddsLead env event i s l) ∧
      (acc.map Prod.fst).Nodup ∧
      ∀ s, s ∈ acc.map Prod.fst ↔ ∃ i ∈ is, ∃ l, b.AddsLead env event i s l := by
  obtain ⟨log, hlog, _, rfl⟩ := backwardWriteLoop_spec h
  have hadded : ∀ s l, (∃ a ∈ log, a.state = s ∧ a.lead = l) ↔
      ∃ i ∈ is, b.AddsLead env event i s l := by
    intro s l
    constructor
    · rintro ⟨a, ha, hs, hl⟩
      obtain ⟨hread, hpassed, _, hlead⟩ := mem_writeLog hlog ha
      rw [hs, hl] at hlead
      exact ⟨a.read, hread, hpassed, hlead⟩
    · rintro ⟨i, hi, hpassed, hlead⟩
      have hind : b.independentWitness env event i := (witnessLead_eq_some hlead).1
      obtain ⟨a, ha, rfl⟩ := exists_mem_writeLog hlog hi hpassed (List.not_mem_nil) hind
      have hsame := (mem_writeLog hlog ha).2.2.2
      rw [hlead] at hsame
      cases hsame
      exact ⟨a, ha, rfl, rfl⟩
  refine ⟨fun s l => ?_, wf_pushAll wf_nil, fun s => ?_⟩
  · rw [mem_pushAll, ← hadded]
    simp [getD]
  · have hstate : (∃ a ∈ log, a.state = s) ↔ ∃ l, ∃ a ∈ log, a.state = s ∧ a.lead = l := by
      constructor
      · rintro ⟨a, ha, hs⟩
        exact ⟨a.lead, a, ha, hs, rfl⟩
      · rintro ⟨_, a, ha, hs, _⟩
        exact ⟨a, ha, hs⟩
    rw [mem_keys_pushAll, hstate]
    simp only [hadded, List.map_nil, List.not_mem_nil, false_or]
    constructor
    · rintro ⟨l, i, hi, hadds⟩
      exact ⟨i, hi, l, hadds⟩
    · rintro ⟨i, hi, l, hadds⟩
      exact ⟨l, i, hi, hadds⟩

/-! ## The analysis of a write -/

/-- The unions keep the covered values and the pending leads. -/
theorem unions_keep {env : Env} {order : List Nat} {leads : Map Nat (List Lead)}
    {b b' : Builder}
    (h : order.foldlM (fun b i => b.union env i (getD leads i [])) b = some b') :
    b'.coveredReadValues = b.coveredReadValues ∧ b'.ewLeads = b.ewLeads := by
  induction order generalizing b with
  | nil =>
    cases h
    exact ⟨rfl, rfl⟩
  | cons i order ih =>
    rw [List.foldlM_cons, Option.bind_eq_bind, Option.bind_eq_some_iff] at h
    obtain ⟨b1, hunion, h⟩ := h
    have hone : b1.coveredReadValues = b.coveredReadValues ∧ b1.ewLeads = b.ewLeads :=
      consistentUnion_rec
        (fun b0 => b0.coveredReadValues = b.coveredReadValues ∧ b0.ewLeads = b.ewLeads)
        (fun _ _ _ => True)
        (fun _ _ _ _ _ _ _ _ _ _ _ hb1 => hb1) (fun _ _ _ _ _ _ hb0 _ _ _ => hb0)
        hunion (fun _ _ _ _ => trivial) ⟨rfl, rfl⟩
    obtain ⟨hcovered, hew⟩ := ih h
    exact ⟨hcovered.trans hone.1, hew.trans hone.2⟩

theorem exploredWitnesses_nodup (env : Env) (b : Builder) (event : Event) :
    (b.exploredWitnesses env event).Nodup :=
  (env.iidOrder_perm _).nodup_iff.mpr (List.nodup_dedup _)

theorem updateLeads_write {env : Env} {b b' : Builder} {event : Event}
    {f : SOPFormula} (hwrite : event.isWrite)
    (h : b.updateLeads env event f = some b') :
    ∃ b1 leads, backwardAnalysisWrite env b event = some (b1, leads) ∧
      (env.stateOrder (leads.map (·.1))).foldlM
        (fun b i => b.union env i (getD leads i [])) b1 = some b' := by
  have hread : event.isRead = false := Event.isRead_eq_false_of_isWrite hwrite
  unfold updateLeads backwardAnalysis at h
  simp only [hread, Bool.false_eq_true, if_false, hwrite, if_true] at h
  simp only [Option.bind_eq_bind, Option.bind_some, Option.bind_eq_some_iff] at h
  obtain ⟨⟨b1, leads⟩, hloop, h⟩ := h
  exact ⟨b1, leads, hloop, h⟩

end Builder

end ViEqui
