import ViEqui.Duplicates
import ViEqui.Explored
import ViEqui.WitnessLoop

/-!
# The order of the explored witnesses

The threads of the parallel loop of `exploredWitnesses` insert the witnesses
that they find in any order.  What the analysis of a write does to the covered
values and the pending leads does not depend on it (`backwardWriteLoop_perm`).
The leads that it adds to the states do: `remove_duplicate_leads` keeps the
first one of two leads, and it takes an infeasible lead for another instance
of any other.

* `Idle`, `Local`: the leads that a union ignores, and those that it treats
  without a call for another state or for leads of the prefix analysis.
* `unionQueue_of_local`: unions of leads that stay at their states.
* `unionQueue_of_single`, `consistentUnion_congr`: unions that ignore all leads
  but one.
* `scheduleIndependent_of_separate`: when the order makes no difference.
-/

namespace ViEqui

open AssocMap

namespace Builder

/-! ## One lead in a union -/

/-- The loop of `consistent_union` ignores the lead. -/
def Idle (fuel : Nat) (b : Builder) (s : Nat) (l : Lead) : Prop :=
  unionStep fuel b s {} l = some {}

/-- The loop of `consistent_union` treats the lead at the state alone: it hands
nothing on to another state and makes no leads of the prefix analysis. -/
def Local (fuel : Nat) (b : Builder) (s : Nat) (l : Lead) : Prop :=
  (unionStep fuel b s {} l).any fun r => r.queue = [] && r.derived = []

instance (fuel : Nat) (b : Builder) (s : Nat) (l : Lead) : Decidable (Idle fuel b s l) :=
  inferInstanceAs (Decidable (_ = _))

instance (fuel : Nat) (b : Builder) (s : Nat) (l : Lead) : Decidable (Local fuel b s l) :=
  inferInstanceAs (Decidable (_ = _))

theorem local_iff {fuel : Nat} {b : Builder} {s : Nat} {l : Lead} :
    Local fuel b s l ↔
      ∃ r, unionStep fuel b s {} l = some r ∧ r.queue = [] ∧ r.derived = [] := by
  simp [Local, Option.any_eq_true]

theorem idle_of_infeasible {fuel : Nat} {b : Builder} {s : Nat} {l : Lead}
    (h : l.mergedSequence = []) : Idle fuel b s l := by
  unfold Idle unionStep
  exact if_pos h

/-- What the loop has collected, with the share of another lead. -/
def UnionResult.push (r r' : UnionResult) : UnionResult :=
  { r with
    rem := r'.rem ++ r.rem
    add := r.add ++ r'.add
    fresh := r.fresh ++ r'.fresh
    derived := r.derived ++ r'.derived }

/-- A step of the loop for a lead that is not handed on. -/
theorem unionStep_push {fuel : Nat} {b : Builder} {s : Nat} {l : Lead}
    {r' : UnionResult} (h : unionStep fuel b s {} l = some r') (hqueue : r'.queue = [])
    (r : UnionResult) : unionStep fuel b s r l = some (r.push r') := by
  unfold unionStep at h ⊢
  simp only [Option.bind_eq_bind, Option.pure_def] at h ⊢
  by_cases hmerged : l.mergedSequence = []
  · rw [if_pos hmerged] at h ⊢
    cases h
    simp [UnionResult.push]
  · rw [if_neg hmerged] at h ⊢
    rw [Option.bind_eq_some_iff] at h
    obtain ⟨a, habsorb, h⟩ := h
    rw [habsorb, Option.bind_some]
    match a, h with
    | some (.replace i f), h =>
      cases h
      simp [UnionResult.push]
    | some .keep, h =>
      cases h
      simp [UnionResult.push]
    | some (.weak i), h =>
      simp only [Option.bind_eq_some_iff] at h
      obtain ⟨leads, hleads, h⟩ := h
      cases h
      simp [hleads, UnionResult.push]
    | none, h =>
      simp only [Option.bind_eq_some_iff] at h
      obtain ⟨⟨queue, forwarded⟩, hforward, h⟩ := h
      rcases forwardLead_cases hforward with ⟨hfw, rfl, rfl⟩ | ⟨hfw, rfl, ⟨hcurrent, rfl⟩ |
        ⟨x, hx, rfl⟩⟩
      · cases h
        simp [forwardLead, hfw, UnionResult.push]
      · cases h
        simp [forwardLead, hfw, hcurrent, UnionResult.push]
      · cases h
        exact absurd hqueue (insert_ne_nil _ _ _)

theorem unionStep_of_idle {fuel : Nat} {b : Builder} {s : Nat} {l : Lead}
    (h : Idle fuel b s l) (r : UnionResult) : unionStep fuel b s r l = some r := by
  rw [unionStep_push h rfl]
  simp [UnionResult.push]

/-- A lead that is absorbed as a copy is not idle. -/
theorem not_idle_of_replace {fuel : Nat} {b : Builder} {s : Nat} {l : Lead} {i : Nat}
    {f : SOPFormula} (h : Absorbed fuel (b.stateAt s) l (.replace i f)) :
    ¬Idle fuel b s l := by
  intro hidle
  have hmem := ((stepAdds_of_unionStep hidle).rem i).mpr (.inr ⟨f, h⟩)
  cases hmem

/-- A new lead that stays is not idle. -/
theorem not_idle_of_unabsorbed {fuel : Nat} {b : Builder} {s : Nat} {l : Lead}
    (h : Unabsorbed fuel (b.stateAt s) l) (hfw : forwards b s l = false) :
    ¬Idle fuel b s l := by
  intro hidle
  have hmem := ((stepAdds_of_unionStep hidle).fresh l).mpr (.inr ⟨h, hfw, rfl⟩)
  cases hmem

/-! ## What a lead depends on -/

/-- The two builders look the same to a union that stays at the state `s`. -/
structure LooksSame (b b' : Builder) (s : Nat) : Prop where
  container : b'.toContainer = b.toContainer
  executionSequence : b'.executionSequence = b.executionSequence
  prefixState : b'.prefixState = b.prefixState
  currentState : b'.currentState = b.currentState
  leads : (b'.stateAt s).leads = (b.stateAt s).leads
  alpha : (b'.stateAt s).alpha = (b.stateAt s).alpha
  mem : (b'.stateAt s).mem = (b.stateAt s).mem

theorem LooksSame.alphaLead {b b' : Builder} {s : Nat} (h : b.LooksSame b' s) :
    (b'.stateAt s).alphaLead = (b.stateAt s).alphaLead := by
  unfold State.alphaLead
  rw [h.leads, h.alpha]

theorem LooksSame.alphaSequence {b b' : Builder} {s : Nat} (h : b.LooksSame b' s) :
    (b'.stateAt s).alphaSequence = (b.stateAt s).alphaSequence :=
  congrArg Lead.mergedSequence h.alphaLead

theorem LooksSame.notAlpha {b b' : Builder} {s : Nat} (h : b.LooksSame b' s) (sl : Lead) :
    notAlpha (b'.stateAt s) sl = notAlpha (b.stateAt s) sl := by
  unfold Builder.notAlpha
  rw [h.alphaSequence]

theorem LooksSame.forwards {b b' : Builder} {s : Nat} (h : b.LooksSame b' s) (l : Lead) :
    forwards b' s l = forwards b s l := by
  unfold Builder.forwards
  rw [h.alpha, h.alphaLead]

theorem LooksSame.absorb {fuel : Nat} {b b' : Builder} {s : Nat} (h : b.LooksSame b' s)
    (l : Lead) (i : Nat) (leads : List Lead) :
    absorb fuel (b'.stateAt s) l i leads = absorb fuel (b.stateAt s) l i leads := by
  induction leads generalizing i with
  | nil => rfl
  | cons sl rest ih => rw [Builder.absorb, Builder.absorb, ih, h.notAlpha]

theorem LooksSame.weakLeads {fuel : Nat} {b b' : Builder} {s : Nat}
    (h : b.LooksSame b' s) (l : Lead) (leads : List Lead) :
    weakLeads fuel b' s l leads = weakLeads fuel b s l leads := by
  have hanalysis : ∀ sl, prefixAnalysis fuel b' s sl l = prefixAnalysis fuel b s sl l := by
    intro sl
    unfold prefixAnalysis
    rw [h.container, h.mem]
  induction leads with
  | nil => rfl
  | cons sl rest ih => rw [Builder.weakLeads, Builder.weakLeads, ih, h.notAlpha, hanalysis]

/-- A lead that is not handed on has the same effect. -/
theorem LooksSame.unionStep {fuel : Nat} {b b' : Builder} {s : Nat} {l : Lead}
    {r : UnionResult} (h : b.LooksSame b' s) (hstep : unionStep fuel b s {} l = some r)
    (hqueue : r.queue = []) : unionStep fuel b' s {} l = some r := by
  have hfw : Builder.forwards b' s l = Builder.forwards b s l := h.forwards l
  have hnext : b'.forwardState s = b.forwardState s := by
    unfold forwardState prefixStateAt
    rw [h.alphaSequence, h.executionSequence, h.prefixState]
  unfold Builder.unionStep at hstep ⊢
  simp only [Option.bind_eq_bind, Option.pure_def] at hstep ⊢
  rw [h.leads, h.absorb]
  simp only [h.weakLeads]
  by_cases hmerged : l.mergedSequence = []
  · rw [if_pos hmerged] at hstep ⊢
    exact hstep
  · rw [if_neg hmerged] at hstep ⊢
    rw [Option.bind_eq_some_iff] at hstep
    obtain ⟨a, habsorb, hstep⟩ := hstep
    rw [habsorb, Option.bind_some]
    match a, hstep with
    | some (.replace i f), hstep => exact hstep
    | some .keep, hstep => exact hstep
    | some (.weak i), hstep => exact hstep
    | none, hstep =>
      simp only [Option.bind_eq_some_iff] at hstep
      obtain ⟨⟨queue, forwarded⟩, hforward, hstep⟩ := hstep
      rcases forwardLead_cases hforward with ⟨hno, rfl, rfl⟩ | ⟨hyes, rfl, ⟨hcurrent, rfl⟩ |
        ⟨x, hx, rfl⟩⟩
      · simp only [forwardLead, hfw, hno, Bool.false_eq_true, if_false, Option.bind_some]
        exact hstep
      · simp only [forwardLead, hfw, hyes, if_true, hnext, hcurrent, h.currentState,
          Option.bind_some]
        exact hstep
      · cases hstep
        exact absurd hqueue (insert_ne_nil _ _ _)

theorem LooksSame.isLocal {fuel : Nat} {b b' : Builder} {s : Nat} {l : Lead}
    (h : b.LooksSame b' s) (hl : Local fuel b s l) : Local fuel b' s l := by
  obtain ⟨r, hr, hqueue, hderived⟩ := local_iff.mp hl
  exact local_iff.mpr ⟨r, h.unionStep hr hqueue, hqueue, hderived⟩

theorem LooksSame.idle {fuel : Nat} {b b' : Builder} {s : Nat} {l : Lead}
    (h : b.LooksSame b' s) (hl : Idle fuel b s l) : Idle fuel b' s l :=
  h.unionStep hl rfl

/-! ## What the scan keeps -/

/-- A lead is taken for another instance of itself. -/
theorem duplicates_self (fuel : Nat) (l : Lead) : duplicates fuel l l = some true := by
  have hsame : ∀ s : EventSequence, s.same s := by
    intro s
    induction s with
    | nil => rfl
    | cons e s ih => simpa [EventSequence.same] using ih
  rw [duplicates, if_pos (hsame _)]

theorem removeDuplicateLeads_nodup {fuel : Nat} {ls ls' : List Lead}
    (h : removeDuplicateLeads fuel ls = some ls') : ls'.Nodup := by
  induction hn : ls.length using Nat.strongRecOn generalizing ls ls' with
  | ind n ih =>
    cases ls with
    | nil =>
      cases h
      exact List.nodup_nil
    | cons l rest =>
      obtain ⟨kept, rfl, hkept⟩ := removeDuplicateLeads_cons h
      have hlen := length_others_le fuel l rest
      rw [List.length_cons] at hn
      refine List.nodup_cons.mpr ⟨fun hl => ?_, ih _ (by omega) hkept rfl⟩
      have hother := mem_others.mp (removeDuplicateLeads_subset hkept hl)
      exact hother.2 (duplicates_self fuel l)

/-- A lead stays that is not taken for another instance of any other. -/
theorem mem_removeDuplicateLeads {fuel : Nat} {ls ls' : List Lead} {l : Lead}
    (h : removeDuplicateLeads fuel ls = some ls') (hl : l ∈ ls)
    (hown : ∀ a ∈ ls, a ≠ l → duplicates fuel a l ≠ some true) : l ∈ ls' := by
  induction hn : ls.length using Nat.strongRecOn generalizing ls ls' with
  | ind n ih =>
    cases ls with
    | nil => cases hl
    | cons a rest =>
      obtain ⟨kept, rfl, hkept⟩ := removeDuplicateLeads_cons h
      have hlen := length_others_le fuel a rest
      rw [List.length_cons] at hn
      by_cases hal : a = l
      · rw [hal]
        exact List.mem_cons_self
      · have hrest : l ∈ rest := (List.mem_cons.mp hl).resolve_left (Ne.symm hal)
        have hother : l ∈ others fuel a rest :=
          mem_others.mpr ⟨hrest, hown a List.mem_cons_self hal⟩
        refine List.mem_cons_of_mem a (ih _ (by omega) hkept hother ?_ rfl)
        intro a' ha'
        exact hown a' (List.mem_cons_of_mem a (mem_others.mp ha').1)

/-- The scan of the leads removes only leads that the state `s` ignores. -/
def Distinct (fuel : Nat) (b : Builder) (s : Nat) (ls : List Lead) : Prop :=
  ∀ l ∈ ls, ∀ l' ∈ ls, l ≠ l' → duplicates fuel l l' = some true → Idle fuel b s l'

theorem Distinct.mem {fuel : Nat} {b : Builder} {s : Nat} {ls ls' : List Lead}
    {l : Lead} (hdistinct : Distinct fuel b s ls)
    (h : removeDuplicateLeads fuel ls = some ls') (hl : l ∈ ls)
    (hidle : ¬Idle fuel b s l) : l ∈ ls' :=
  mem_removeDuplicateLeads h hl fun a ha hne hdup =>
    hidle (hdistinct a ha l hl hne hdup)

theorem LooksSame.distinct {fuel : Nat} {b b' : Builder} {s : Nat} {ls : List Lead}
    (h : b.LooksSame b' s) (hdistinct : Distinct fuel b s ls) : Distinct fuel b' s ls :=
  fun l hl l' hl' hne hdup => h.idle (hdistinct l hl l' hl' hne hdup)

/-! ## A union of leads that stay at the state -/

/-- The lead is one of the state after the union with the leads `ls`. -/
def StaysIn (fuel : Nat) (b : Builder) (s : Nat) (ls : List Lead) (x : Lead) : Prop :=
  (∃ i, (b.stateAt s).leads[i]? = some x ∧
      ∀ l ∈ ls, ∀ f, ¬Absorbed fuel (b.stateAt s) l (.replace i f)) ∨
    (∃ l ∈ ls, ∃ i f, Absorbed fuel (b.stateAt s) l (.replace i f) ∧
      x = ((b.stateAt s).leads.getD i default).withForbidden f) ∨
    x ∈ ls ∧ Unabsorbed fuel (b.stateAt s) x ∧ forwards b s x = false

theorem staysIn_congr {fuel : Nat} {b b' : Builder} {s : Nat} {ls ls' : List Lead}
    {x : Lead} (hstate : b'.stateAt s = b.stateAt s) (hls : ∀ l, l ∈ ls' ↔ l ∈ ls) :
    StaysIn fuel b' s ls' x ↔ StaysIn fuel b s ls x := by
  unfold StaysIn forwards
  rw [hstate]
  simp only [hls]

theorem mem_eraseIndices_iff {α : Type} {rem : List Nat} {k : Nat} {l : List α} {x : α} :
    x ∈ eraseIndices rem k l ↔ ∃ i, l[i]? = some x ∧ k + i ∉ rem := by
  constructor
  · intro hx
    induction l generalizing k with
    | nil => cases hx
    | cons a l ih =>
      have hrest : x ∈ eraseIndices rem (k + 1) l →
          ∃ i, (a :: l)[i]? = some x ∧ k + i ∉ rem := by
        intro hx
        obtain ⟨i, hi, hnot⟩ := ih hx
        refine ⟨i + 1, hi, ?_⟩
        rwa [← Nat.add_assoc, Nat.add_right_comm]
      rw [eraseIndices] at hx
      split at hx
      · exact hrest hx
      · next hk =>
        rcases List.mem_cons.mp hx with rfl | hx
        · exact ⟨0, rfl, hk⟩
        · exact hrest hx
  · rintro ⟨i, hi, hnot⟩
    exact mem_eraseIndices hi hnot

/-- The leads after the loop, for the leads before the duplicates were
removed. -/
theorem mem_leads_iff_staysIn {fuel : Nat} {b : Builder} {s : Nat} {ls ls' : List Lead}
    {r : UnionResult} (hdistinct : Distinct fuel b s ls)
    (hdup : removeDuplicateLeads fuel ls = some ls')
    (hloop : ls'.foldlM (unionStep fuel b s) {} = some r) (x : Lead) :
    x ∈ r.leads (b.stateAt s).leads ↔ StaysIn fuel b s ls x := by
  have hreplace : ∀ l i f, Absorbed fuel (b.stateAt s) l (.replace i f) →
      (l ∈ ls' ↔ l ∈ ls) := by
    intro l i f habsorbed
    exact ⟨fun hl => removeDuplicateLeads_subset hdup hl,
      fun hl => hdistinct.mem hdup hl (not_idle_of_replace habsorbed)⟩
  have hrem : ∀ i, i ∈ r.rem ↔
      ∃ l ∈ ls, ∃ f, Absorbed fuel (b.stateAt s) l (.replace i f) := by
    intro i
    rw [mem_rem hloop]
    constructor
    · intro ⟨l, hl, f, hf⟩
      exact ⟨l, (hreplace l i f hf).mp hl, f, hf⟩
    · intro ⟨l, hl, f, hf⟩
      exact ⟨l, (hreplace l i f hf).mpr hl, f, hf⟩
  have hadd : x ∈ r.add ↔ ∃ l ∈ ls, ∃ i f,
      Absorbed fuel (b.stateAt s) l (.replace i f) ∧
        x = ((b.stateAt s).leads.getD i default).withForbidden f := by
    rw [mem_add hloop]
    constructor
    · intro ⟨l, hl, i, f, hf, hx⟩
      exact ⟨l, (hreplace l i f hf).mp hl, i, f, hf, hx⟩
    · intro ⟨l, hl, i, f, hf, hx⟩
      exact ⟨l, (hreplace l i f hf).mpr hl, i, f, hf, hx⟩
  have hfresh : x ∈ r.fresh ↔
      x ∈ ls ∧ Unabsorbed fuel (b.stateAt s) x ∧ forwards b s x = false := by
    rw [mem_fresh hloop]
    constructor
    · intro ⟨hx, hun, hfw⟩
      exact ⟨removeDuplicateLeads_subset hdup hx, hun, hfw⟩
    · intro ⟨hx, hun, hfw⟩
      exact ⟨hdistinct.mem hdup hx (not_idle_of_unabsorbed hun hfw), hun, hfw⟩
  unfold UnionResult.leads StaysIn
  rw [List.mem_append, List.mem_append, mem_eraseIndices_iff, hadd, hfresh, or_assoc]
  simp only [Nat.zero_add, hrem, not_exists, not_and]

/-- The union of the leads `ls` changes the leads of the state `s` alone, and
in any order of `ls` in the same way. -/
structure LocalLeads (fuel : Nat) (b : Builder) (s : Nat) (ls : List Lead) : Prop where
  explored : (b.stateAt s).leads ≠ []
  stay : ∀ l ∈ ls, Local fuel b s l
  distinct : Distinct fuel b s ls

theorem LooksSame.localLeads {fuel : Nat} {b b' : Builder} {s : Nat} {ls : List Lead}
    (h : b.LooksSame b' s) (hlocal : LocalLeads fuel b s ls) :
    LocalLeads fuel b' s ls where
  explored := h.leads ▸ hlocal.explored
  stay l hl := h.isLocal (hlocal.stay l hl)
  distinct := h.distinct hlocal.distinct

theorem loop_of_local {fuel : Nat} {b : Builder} {s : Nat} {ls : List Lead}
    {r r' : UnionResult} (hlocal : ∀ l ∈ ls, Local fuel b s l)
    (h : ls.foldlM (unionStep fuel b s) r = some r') (hqueue : r.queue = [])
    (hderived : r.derived = []) : r'.queue = [] ∧ r'.derived = [] := by
  induction ls generalizing r with
  | nil =>
    cases h
    exact ⟨hqueue, hderived⟩
  | cons l ls ih =>
    rw [List.foldlM_cons, Option.bind_eq_bind, Option.bind_eq_some_iff] at h
    obtain ⟨r1, hstep, h⟩ := h
    obtain ⟨r0, hr0, hqueue0, hderived0⟩ := local_iff.mp (hlocal l List.mem_cons_self)
    rw [unionStep_push hr0 hqueue0] at hstep
    cases hstep
    refine ih (fun l' hl' => hlocal l' (List.mem_cons_of_mem _ hl')) h hqueue ?_
    show r.derived ++ r0.derived = []
    rw [hderived, hderived0, List.append_nil]

theorem order_nil (env : Env) : env.stateOrder [] = [] :=
  (env.stateOrder_perm []).eq_nil

theorem consistentUnion_of_local {env : Env} {depth : Nat} {b b' : Builder} {s : Nat}
    {ls : List Lead} (hlocal : LocalLeads env.fuel b s ls)
    (h : consistentUnion env depth b s ls = some b') :
    (∃ f, b' = b.modifyState s f) ∧
      ∀ x, x ∈ (b'.stateAt s).leads ↔ StaysIn env.fuel b s ls x := by
  cases depth with
  | zero => cases h
  | succ depth =>
    obtain ⟨ls', hdup, h⟩ := consistentUnion_succ h
    have hstay : ∀ l ∈ ls', Local env.fuel b s l :=
      fun l hl => hlocal.stay l (removeDuplicateLeads_subset hdup hl)
    rcases h with ⟨_, _, _, hempty, _⟩ | ⟨r, b1, hloop, h⟩
    · exact absurd hempty.leads hlocal.explored
    · obtain ⟨hqueue, hderived⟩ := loop_of_local hstay hloop.loop rfl rfl
      have hcalls := hloop.calls
      rw [hqueue, List.map_nil, order_nil] at hcalls
      obtain rfl := Option.some.inj hcalls
      rcases h with ⟨_, rfl⟩ | ⟨hne, _⟩
      · refine ⟨⟨_, rfl⟩, fun x => ?_⟩
        rw [stateAt_modifyState_self (lt_of_leads_ne_nil hlocal.explored)]
        exact mem_leads_iff_staysIn hlocal.distinct hdup hloop.loop x
      · exact absurd hderived hne

theorem looksSame_modifyState {b : Builder} {s t : Nat} {f : State → State} (h : s ≠ t) :
    b.LooksSame (b.modifyState s f) t := by
  have hstate : (b.modifyState s f).stateAt t = b.stateAt t := stateAt_modifyState_ne h
  exact ⟨rfl, rfl, rfl, rfl, by rw [hstate], by rw [hstate], by rw [hstate]⟩

/-- Unions of leads that stay at their states. -/
theorem unionQueue_of_local {env : Env} {depth : Nat} {b b' : Builder}
    {leads : Map Nat (List Lead)} {order : List Nat} (hnodup : order.Nodup)
    (hlocal : ∀ s ∈ order, LocalLeads env.fuel b s (getD leads s []))
    (h : unionQueue env depth leads b order = some b') :
    (∀ s, s ∉ order → b'.stateAt s = b.stateAt s) ∧
      ∀ s ∈ order, ∀ x, x ∈ (b'.stateAt s).leads ↔
        StaysIn env.fuel b s (getD leads s []) x := by
  induction order generalizing b with
  | nil =>
    cases h
    exact ⟨fun _ _ => rfl, fun s hs => absurd hs (List.not_mem_nil)⟩
  | cons t order ih =>
    obtain ⟨hnotin, hnodup⟩ := List.nodup_cons.mp hnodup
    obtain ⟨b1, hcall, h⟩ := unionQueue_cons h
    obtain ⟨⟨f, rfl⟩, hleads⟩ := consistentUnion_of_local (hlocal t List.mem_cons_self) hcall
    have hrest : ∀ s ∈ order, LocalLeads env.fuel (b.modifyState t f) s (getD leads s []) := by
      intro s hs
      have hts : t ≠ s := fun hts => hnotin (hts ▸ hs)
      exact (looksSame_modifyState hts).localLeads (hlocal s (List.mem_cons_of_mem t hs))
    obtain ⟨hother, hown⟩ := ih hnodup hrest h
    refine ⟨fun s hs => ?_, fun s hs x => ?_⟩
    · have hts : t ≠ s := fun hts => hs (hts ▸ List.mem_cons_self)
      rw [hother s fun hmem => hs (List.mem_cons_of_mem t hmem), stateAt_modifyState_ne hts]
    · by_cases hts : t = s
      · subst hts
        rw [hother t hnotin]
        exact hleads x
      · have hmem : s ∈ order := (List.mem_cons.mp hs).resolve_left (Ne.symm hts)
        rw [hown s hmem x]
        exact staysIn_congr (stateAt_modifyState_ne hts) fun _ => Iff.rfl

/-! ## A union that ignores all leads but one -/

theorem loop_of_idle {fuel : Nat} {b : Builder} {s : Nat} {ls : List Lead}
    (hidle : ∀ l ∈ ls, Idle fuel b s l) (r : UnionResult) :
    ls.foldlM (unionStep fuel b s) r = some r := by
  induction ls with
  | nil => rfl
  | cons l ls ih =>
    rw [List.foldlM_cons, unionStep_of_idle (hidle l List.mem_cons_self)]
    exact ih fun l' hl' => hidle l' (List.mem_cons_of_mem l hl')

theorem loop_of_single {fuel : Nat} {b : Builder} {s : Nat} {ls : List Lead} {l : Lead}
    {r : UnionResult} (hnodup : ls.Nodup) (hl : l ∈ ls)
    (hidle : ∀ l' ∈ ls, l' ≠ l → Idle fuel b s l')
    (h : ls.foldlM (unionStep fuel b s) {} = some r) :
    unionStep fuel b s {} l = some r := by
  obtain ⟨front, back, rfl⟩ := List.append_of_mem hl
  have hne : ∀ l' ∈ front ++ back, l' ≠ l := by
    intro l' hl' heq
    subst heq
    exact (List.nodup_middle.mp hnodup).notMem hl'
  have hfront : front.foldlM (unionStep fuel b s) {} = some {} := by
    refine loop_of_idle (fun l' hl' => ?_) {}
    exact hidle l' (List.mem_append_left _ hl') (hne l' (List.mem_append_left _ hl'))
  rw [List.foldlM_append, hfront, Option.bind_eq_bind, Option.bind_some, List.foldlM_cons,
    Option.bind_eq_bind, Option.bind_eq_some_iff] at h
  obtain ⟨r1, hstep, hback⟩ := h
  rw [loop_of_idle] at hback
  · cases hback
    exact hstep
  · intro l' hl'
    exact hidle l' (List.mem_append_right _ (List.mem_cons_of_mem l hl'))
      (hne l' (List.mem_append_right _ hl'))

/-- The leads of `ls` that the state does not ignore are one lead. -/
def Single (fuel : Nat) (b : Builder) (s : Nat) (ls : List Lead) : Prop :=
  ∀ l ∈ ls, ∀ l' ∈ ls, ¬Idle fuel b s l → ¬Idle fuel b s l' → l = l'

/-- The loops over two lists of the same leads collect the same. -/
theorem loop_congr {fuel : Nat} {b : Builder} {s : Nat} {ls ls' kept kept' : List Lead}
    {r r' : UnionResult} (hdistinct : Distinct fuel b s ls) (hsingle : Single fuel b s ls)
    (hmem : ∀ l, l ∈ ls' ↔ l ∈ ls) (hdup : removeDuplicateLeads fuel ls = some kept)
    (hdup' : removeDuplicateLeads fuel ls' = some kept')
    (h : kept.foldlM (unionStep fuel b s) {} = some r)
    (h' : kept'.foldlM (unionStep fuel b s) {} = some r') : r' = r := by
  have hsub : ∀ l ∈ kept, l ∈ ls := fun l hl => removeDuplicateLeads_subset hdup hl
  have hsub' : ∀ l ∈ kept', l ∈ ls :=
    fun l hl => (hmem l).mp (removeDuplicateLeads_subset hdup' hl)
  by_cases hidle : ∀ l ∈ ls, Idle fuel b s l
  · rw [loop_of_idle fun l hl => hidle l (hsub l hl)] at h
    rw [loop_of_idle fun l hl => hidle l (hsub' l hl)] at h'
    exact Option.some.inj (h'.symm.trans h)
  · -- the one lead that is not ignored is kept in both lists
    push Not at hidle
    obtain ⟨l, hl, hnot⟩ := hidle
    have hothers : ∀ l' ∈ ls, l' ≠ l → Idle fuel b s l' := by
      intro l' hl' hne
      by_contra hnot'
      exact hne (hsingle l' hl' l hl hnot' hnot)
    have hdistinct' : Distinct fuel b s ls' := by
      intro a ha a' ha'
      exact hdistinct a ((hmem a).mp ha) a' ((hmem a').mp ha')
    have hstep := loop_of_single (removeDuplicateLeads_nodup hdup)
      (hdistinct.mem hdup hl hnot) (fun l' hl' => hothers l' (hsub l' hl')) h
    have hstep' := loop_of_single (removeDuplicateLeads_nodup hdup')
      (hdistinct'.mem hdup' ((hmem l).mpr hl) hnot)
      (fun l' hl' => hothers l' (hsub' l' hl')) h'
    exact Option.some.inj (hstep'.symm.trans hstep)

theorem consistentUnion_congr {env : Env} {depth : Nat} {b b1 b2 : Builder} {s : Nat}
    {ls ls' : List Lead} (hexplored : (b.stateAt s).leads ≠ [])
    (hdistinct : Distinct env.fuel b s ls) (hsingle : Single env.fuel b s ls)
    (hmem : ∀ l, l ∈ ls' ↔ l ∈ ls) (h : consistentUnion env depth b s ls = some b1)
    (h' : consistentUnion env depth b s ls' = some b2) : b2 = b1 := by
  cases depth with
  | zero => cases h
  | succ depth =>
    obtain ⟨kept, hdup, h⟩ := consistentUnion_succ h
    obtain ⟨kept', hdup', h'⟩ := consistentUnion_succ h'
    rcases h with ⟨_, _, _, hempty, _⟩ | ⟨r, c1, hloop, h⟩
    · exact absurd hempty.leads hexplored
    rcases h' with ⟨_, _, _, hempty, _⟩ | ⟨r', c2, hloop', h'⟩
    · exact absurd hempty.leads hexplored
    obtain rfl := loop_congr hdistinct hsingle hmem hdup hdup' hloop.loop hloop'.loop
    obtain rfl := Option.some.inj (hloop'.calls.symm.trans hloop.calls)
    rcases h with ⟨hnil, rfl⟩ | ⟨hne, h⟩
    · rcases h' with ⟨_, rfl⟩ | ⟨hne, _⟩
      · rfl
      · exact absurd hnil hne
    · rcases h' with ⟨hnil, _⟩ | ⟨_, h'⟩
      · exact absurd hnil hne
      · exact Option.some.inj (h'.symm.trans h)

/-- A state with leads keeps some. -/
theorem leads_ne_nil_of_consistentUnion {env : Env} {depth : Nat} {b b' : Builder}
    {s t : Nat} {ls : List Lead} (hexplored : (b.stateAt t).leads ≠ [])
    (h : consistentUnion env depth b s ls = some b') : (b'.stateAt t).leads ≠ [] := by
  refine consistentUnion_rec (fun b => (b.stateAt t).leads ≠ []) (fun _ _ _ => True)
    ?_ ?_ h (fun _ _ _ _ => trivial) hexplored
  · intro depth b b1 s ls ls' queue rest _ hb hempty hb1
    have hst : s ≠ t := fun hst => hb (hst ▸ hempty.leads)
    show ((b1.modifyState s _).stateAt t).leads ≠ []
    rw [stateAt_modifyState_ne hst]
    exact hb1
  · intro b s ls ls' r _ hb _ _ hloop
    show ((b.modifyState s _).stateAt t).leads ≠ []
    by_cases hst : s = t
    · subst hst
      rw [stateAt_modifyState_self (lt_of_leads_ne_nil hb)]
      obtain ⟨l, hl⟩ := List.exists_mem_of_ne_nil _ hb
      rcases mem_rebuild (rebuild_of_loop hloop) hl with hmem | ⟨_, x, hmem, _⟩
      · exact List.ne_nil_of_mem hmem
      · exact List.ne_nil_of_mem hmem
    · rw [stateAt_modifyState_ne hst]
      exact hb

/-- Infeasible leads change nothing at a state with leads. -/
theorem consistentUnion_of_infeasible {env : Env} {depth : Nat} {b b' : Builder} {s : Nat}
    {ls : List Lead} (hexplored : (b.stateAt s).leads ≠ [])
    (hinfeasible : ∀ l ∈ ls, l.mergedSequence = [])
    (h : consistentUnion env depth b s ls = some b') : b' = b := by
  cases depth with
  | zero => cases h
  | succ depth =>
    obtain ⟨kept, hdup, h⟩ := consistentUnion_succ h
    rcases h with ⟨_, _, _, hempty, _⟩ | ⟨r, b1, hloop, h⟩
    · exact absurd hempty.leads hexplored
    · have hr := hloop.loop
      rw [loop_of_idle fun l hl =>
        idle_of_infeasible (hinfeasible l (removeDuplicateLeads_subset hdup hl))] at hr
      cases hr
      have hkeep : ∀ st : State,
          { st with leads := UnionResult.leads {} st.leads } = st := by
        intro st
        have hleads : UnionResult.leads {} st.leads = st.leads := by
          unfold UnionResult.leads
          rw [eraseIndices_of_notMem fun i hi => absurd hi (List.not_mem_nil),
            List.append_nil, List.append_nil]
        rw [hleads]
      have hcalls := hloop.calls
      simp only [List.map_nil, order_nil, hkeep] at hcalls
      obtain rfl := Option.some.inj hcalls
      rcases h with ⟨_, rfl⟩ | ⟨hne, _⟩
      · show { b with states := b.states.modify s fun st => st } = b
        rw [show (fun st : State => st) = id from rfl, List.modify_id]
      · exact absurd rfl hne

theorem unionQueue_of_infeasible {env : Env} {depth : Nat} {b b' : Builder}
    {leads : Map Nat (List Lead)} {order : List Nat}
    (hexplored : ∀ s ∈ order, (b.stateAt s).leads ≠ [])
    (hinfeasible : ∀ s ∈ order, ∀ l ∈ getD leads s [], l.mergedSequence = [])
    (h : unionQueue env depth leads b order = some b') : b' = b := by
  induction order generalizing b with
  | nil => exact (Option.some.inj h).symm
  | cons t order ih =>
    obtain ⟨b1, hcall, hlater⟩ := unionQueue_cons h
    obtain rfl := consistentUnion_of_infeasible (hexplored t List.mem_cons_self)
      (hinfeasible t List.mem_cons_self) hcall
    exact ih (fun s hs => hexplored s (List.mem_cons_of_mem t hs))
      (fun s hs => hinfeasible s (List.mem_cons_of_mem t hs)) hlater

/-- With infeasible leads for all states but one, the unions are the one for
that state. -/
theorem unionQueue_of_single {env : Env} {depth : Nat} {b b' : Builder}
    {leads : Map Nat (List Lead)} {order : List Nat} {t : Nat} (ht : t ∈ order)
    (hnodup : order.Nodup) (hexplored : ∀ s ∈ order, (b.stateAt s).leads ≠ [])
    (hinfeasible : ∀ s ∈ order, s ≠ t → ∀ l ∈ getD leads s [], l.mergedSequence = [])
    (h : unionQueue env depth leads b order = some b') :
    consistentUnion env depth b t (getD leads t []) = some b' := by
  obtain ⟨front, back, rfl⟩ := List.append_of_mem ht
  have hne : ∀ s ∈ front ++ back, s ≠ t := by
    intro s hs hst
    subst hst
    exact (List.nodup_middle.mp hnodup).notMem hs
  unfold unionQueue at h
  rw [List.foldlM_append, Option.bind_eq_bind, Option.bind_eq_some_iff] at h
  obtain ⟨b1, hfront, h⟩ := h
  obtain rfl := unionQueue_of_infeasible
    (fun s hs => hexplored s (List.mem_append_left _ hs))
    (fun s hs => hinfeasible s (List.mem_append_left _ hs) (hne s (List.mem_append_left _ hs)))
    hfront
  obtain ⟨b2, hcall, hback⟩ := unionQueue_cons h
  have hbehind : ∀ s ∈ back, s ∈ front ++ t :: back :=
    fun s hs => List.mem_append_right _ (List.mem_cons_of_mem t hs)
  obtain rfl := unionQueue_of_infeasible
    (fun s hs => leads_ne_nil_of_consistentUnion (hexplored s (hbehind s hs)) hcall)
    (fun s hs => hinfeasible s (hbehind s hs) (hne s (List.mem_append_right _ hs))) hback
  exact hcall

/-! ## The loop in another order -/

/-- What the unions look at. -/
def bare (b : Builder) : Builder :=
  { b with coveredReadValues := [], ewLeads := [], parallelLoops := 0 }

theorem forwardSuffixLeads_bare (fuel : Nat) (b : Builder) (s : Nat)
    (queue : Map Nat (List Lead)) (ls : List Lead) :
    forwardSuffixLeads fuel b.bare s queue ls = forwardSuffixLeads fuel b s queue ls := by
  have hforward : ∀ l queue, b.bare.forwardLead fuel s l queue =
      b.forwardLead fuel s l queue := fun _ _ => rfl
  induction ls generalizing queue with
  | nil => rfl
  | cons l ls ih => simp only [forwardSuffixLeads, hforward, ih]

theorem unionStep_bare (fuel : Nat) (b : Builder) (s : Nat) :
    unionStep fuel b.bare s = unionStep fuel b s := by
  have hlook : b.LooksSame b.bare s := ⟨rfl, rfl, rfl, rfl, rfl, rfl, rfl⟩
  have hstate : b.bare.stateAt s = b.stateAt s := rfl
  have hforward : ∀ l queue, b.bare.forwardLead fuel s l queue =
      b.forwardLead fuel s l queue := fun _ _ => rfl
  funext r l
  unfold unionStep
  simp only [hstate, hforward, hlook.weakLeads]

theorem unionQueue_bare {env : Env} {depth : Nat}
    (h : ∀ b s ls, consistentUnion env depth b.bare s ls =
      (consistentUnion env depth b s ls).map bare)
    (leads : Map Nat (List Lead)) (b : Builder) (order : List Nat) :
    unionQueue env depth leads b.bare order =
      (unionQueue env depth leads b order).map bare := by
  induction order generalizing b with
  | nil => rfl
  | cons t order ih =>
    have hcons : ∀ b, unionQueue env depth leads b (t :: order) =
        (consistentUnion env depth b t (getD leads t [])).bind fun b =>
          unionQueue env depth leads b order := fun _ => rfl
    rw [hcons, hcons, h]
    cases consistentUnion env depth b t (getD leads t []) with
    | none => rfl
    | some b1 => exact ih b1

theorem consistentUnion_bare (env : Env) (depth : Nat) (b : Builder) (s : Nat)
    (ls : List Lead) :
    consistentUnion env depth b.bare s ls = (consistentUnion env depth b s ls).map bare := by
  induction depth generalizing b s ls with
  | zero => rfl
  | succ depth ih =>
    have hqueue := unionQueue_bare ih
    unfold unionQueue at hqueue
    have hstate : b.bare.stateAt s = b.stateAt s := rfl
    have hmodify : ∀ (b : Builder) f, b.bare.modifyState s f = (b.modifyState s f).bare :=
      fun _ _ => rfl
    rw [consistentUnion, consistentUnion]
    simp only [Option.bind_eq_bind, Option.pure_def, hstate, forwardSuffixLeads_bare,
      unionStep_bare]
    cases removeDuplicateLeads env.fuel ls with
    | none => rfl
    | some kept =>
      simp only [Option.bind_some]
      split
      · cases forwardSuffixLeads env.fuel b s [] kept with
        | none => rfl
        | some p =>
          simp only [Option.bind_some, hqueue]
          cases p.1.map (·.1) |> env.stateOrder |>.foldlM
            (fun b i => consistentUnion env depth b i (getD p.1 i [])) b <;> rfl
      · cases kept.foldlM (unionStep env.fuel b s) {} with
        | none => rfl
        | some r =>
          simp only [Option.bind_some, hmodify, hqueue]
          cases r.queue.map (·.1) |> env.stateOrder |>.foldlM
            (fun b i => consistentUnion env depth b i (getD r.queue i []))
              (b.modifyState s fun st => { st with leads := r.leads st.leads }) with
          | none => rfl
          | some b1 =>
            simp only [Option.map_some, Option.bind_some]
            split
            · rfl
            · exact ih b1 s r.derived

theorem states_ext {b b' : Builder} (hlength : b'.states.length = b.states.length)
    (h : ∀ s, b'.stateAt s = b.stateAt s) : b'.states = b.states := by
  apply List.ext_getElem hlength
  intro s hs hs'
  have hstate := h s
  unfold stateAt at hstate
  simpa [List.getD_eq_getElem?_getD, hs, hs'] using hstate

theorem looksSame_of_analysed {b b' : Builder} (h : b'.analysed = b.analysed) (s : Nat) :
    b.LooksSame b' s := by
  have hstate : b'.analysed.stateAt s = b.analysed.stateAt s := by rw [h]
  rw [stateAt_analysed, stateAt_analysed] at hstate
  injection hstate with _ hleads _ halpha _ _ _ _ _ hmem
  exact ⟨congrArg (·.toContainer) h, congrArg (·.executionSequence) h,
    congrArg (·.prefixState) h, congrArg (·.currentState) h, hleads, halpha, hmem⟩

/-- The loop over the witnesses does the same in every order. -/
theorem backwardWriteLoop_perm {env : Env} {b b1 b2 : Builder} {event : Event}
    {acc1 acc2 : Map Nat (List Lead)} {is is' : List IID} (hperm : is'.Perm is)
    (hnodup : is.Nodup) (h1 : backwardWriteLoop env event b [] is = some (b1, acc1))
    (h2 : backwardWriteLoop env event b [] is' = some (b2, acc2)) :
    (∀ i, b2.covered i = b1.covered i) ∧
      (∀ s i v, b2.pendingLeads s i v = b1.pendingLeads s i v) ∧ b2.bare = b1.bare := by
  -- `c` is the builder behind the iteration for the read `i`, if there is one
  have hread : ∀ i, ∃ c : Builder, c.analysed = b.analysed ∧ c.SparesRead b1 i ∧
      c.SparesRead b2 i := by
    intro i
    by_cases hi : i ∈ is
    · exact ⟨b.witnessStep env event i, analysed_witnessStep env b event i,
        backwardWriteLoop_at hnodup hi h1,
        backwardWriteLoop_at (hperm.nodup_iff.mpr hnodup) (hperm.mem_iff.mpr hi) h2⟩
    · exact ⟨b, rfl, backwardWriteLoop_spares hi h1,
        backwardWriteLoop_spares (fun hi' => hi (hperm.mem_iff.mp hi')) h2⟩
  have hlook : b2.analysed = b1.analysed :=
    (analysed_backwardWriteLoop h2).trans (analysed_backwardWriteLoop h1).symm
  have hstate : ∀ s, b2.stateAt s = b1.stateAt s := by
    intro s
    obtain ⟨c, hc, hc1, hc2⟩ := hread (b.stateAt s).fwdRead
    have hfwd : (c.stateAt s).fwdRead = (b.stateAt s).fwdRead := by
      have hanalysed : c.analysed.stateAt s = b.analysed.stateAt s := by rw [hc]
      rw [stateAt_analysed, stateAt_analysed] at hanalysed
      injection hanalysed
    exact (hc2.state s hfwd).trans (hc1.state s hfwd).symm
  have hlength : b2.states.length = b1.states.length := by
    have hanalysed := congrArg (fun b : Builder => b.states.length) hlook
    simpa [analysed] using hanalysed
  refine ⟨fun i => ?_, fun s i v => ?_, ?_⟩
  · obtain ⟨c, _, hc1, hc2⟩ := hread i
    exact hc2.covered.trans hc1.covered.symm
  · obtain ⟨c, _, hc1, hc2⟩ := hread i
    exact (hc2.pending s v).trans (hc1.pending s v).symm
  · have hbare : ∀ b : Builder, b.bare = { b.analysed with states := b.states } :=
      fun _ => rfl
    rw [hbare, hbare, hlook, states_ext hlength hstate]

/-! ## Two schedules -/

end Builder

/-- The other environment enumerates the reads in another order: their
insertion in the parallel loops and the sets of reads. -/
structure Env.Rescheduled (env env' : Env) : Prop where
  fuel : env'.fuel = env.fuel
  stateOrder : env'.stateOrder = env.stateOrder

/-- The iterations of the parallel loops insert in reverse order. -/
def Env.reversed (fuel : Nat) : Env :=
  { Env.inOrder fuel with
    ompOrder := fun _ => List.reverse
    ompOrder_perm := fun _ l => List.reverse_perm l }

theorem Env.rescheduled_reversed (fuel : Nat) :
    (Env.inOrder fuel).Rescheduled (Env.reversed fuel) := ⟨rfl, rfl⟩

namespace Builder

theorem consistentUnion_rescheduled {env env' : Env} (h : env.Rescheduled env')
    (depth : Nat) (b : Builder) (s : Nat) (ls : List Lead) :
    consistentUnion env' depth b s ls = consistentUnion env depth b s ls := by
  induction depth generalizing b s ls with
  | zero => rfl
  | succ depth ih => simp only [consistentUnion, h.fuel, h.stateOrder, ih]

theorem witnessLead_rescheduled {env env' : Env} (h : env.Rescheduled env') (b : Builder)
    (event : Event) (i : IID) :
    b.witnessLead env' event i = b.witnessLead env event i := by
  unfold witnessLead witnessStart
  rw [h.fuel]

theorem backwardWriteLoop_rescheduled {env env' : Env} (h : env.Rescheduled env')
    (event : Event) (b : Builder) (acc : Map Nat (List Lead)) (is : List IID) :
    backwardWriteLoop env' event b acc is = backwardWriteLoop env event b acc is := by
  induction is generalizing b acc with
  | nil => rfl
  | cons i is ih => simp only [backwardWriteLoop_cons, witnessLead_rescheduled h, ih]

theorem exploredWitnesses_rescheduled (env env' : Env) (b : Builder) (event : Event) :
    (b.exploredWitnesses env' event).Perm (b.exploredWitnesses env event) := by
  unfold exploredWitnesses
  refine (env'.iidOrder_perm _).trans (.trans ?_ (env.iidOrder_perm _).symm)
  exact ((env'.ompOrder_perm _ _).trans (env.ompOrder_perm _ _).symm).dedup

theorem addsLead_congr {env : Env} {b b' : Builder} {event : Event} {i : IID} {s : Nat}
    {l : Lead} (hlook : b'.analysed = b.analysed) (hcovered : b'.covered i = b.covered i) :
    b'.AddsLead env event i s l ↔ b.AddsLead env event i s l := by
  unfold AddsLead
  rw [witnessPassed_congr hlook hcovered, witnessLead_congr hlook]

/-- The leads that the loop over the witnesses collects, with their states. -/
def addedLeads (env : Env) (b : Builder) (event : Event) : List (Nat × Lead) :=
  (b.exploredWitnesses env event).filterMap fun i =>
    if b.WitnessPassed event i then none
    else
      match b.witnessLead env event i with
      | some (some (s, l, true)) => some (s, l)
      | _ => none

theorem mem_addedLeads {env : Env} {b : Builder} {event : Event} {s : Nat} {l : Lead} :
    (s, l) ∈ b.addedLeads env event ↔
      ∃ i ∈ b.exploredWitnesses env event, b.AddsLead env event i s l := by
  unfold addedLeads AddsLead
  simp only [List.mem_filterMap]
  refine exists_congr fun i => and_congr_right fun _ => ?_
  by_cases hpassed : b.WitnessPassed event i
  · simp [hpassed]
  · rw [if_neg hpassed, and_iff_right hpassed]
    split
    · next h =>
      rw [h]
      simp
    · next h =>
      refine iff_of_false nofun fun hlead => ?_
      exact h _ _ hlead

/-- The leads for the witnesses of a write do not compete.  Their states have
leads, `remove_duplicate_leads` removes among them only what the state ignores,
and either each lead stays at its state, or the states ignore all of them but
one. -/
structure Separate (env : Env) (b : Builder) (event : Event) : Prop where
  explored : ∀ a ∈ b.addedLeads env event, (b.stateAt a.1).leads ≠ []
  distinct : ∀ a ∈ b.addedLeads env event, ∀ a' ∈ b.addedLeads env event,
    a.1 = a'.1 → a.2 ≠ a'.2 → duplicates env.fuel a.2 a'.2 = some true →
      Idle env.fuel b a'.1 a'.2
  apart : (∀ a ∈ b.addedLeads env event, Local env.fuel b a.1 a.2) ∨
    ∃ s, (∀ a ∈ b.addedLeads env event, a.1 ≠ s → a.2.mergedSequence = []) ∧
      ∀ a ∈ b.addedLeads env event, ∀ a' ∈ b.addedLeads env event, a.1 = s → a'.1 = s →
        ¬Idle env.fuel b s a.2 → ¬Idle env.fuel b s a'.2 → a.2 = a'.2

/-- The leads as triples `(start, constraint, forbidden)`. -/
def contents (ls : List Lead) : Set (Sequence × Sequence × SOPFormula) :=
  { t | ∃ l ∈ ls, (l.start, l.constraint, l.forbidden) = t }

theorem contents_congr {ls ls' : List Lead} (h : ∀ l, l ∈ ls' ↔ l ∈ ls) :
    contents ls' = contents ls := by
  unfold contents
  simp only [h]

/-- The same leads in the states and in `EW_leads`, and the same
`covered_read_values`. -/
structure SameLeads (b b' : Builder) : Prop where
  leads : ∀ s, contents (b'.stateAt s).leads = contents (b.stateAt s).leads
  eiLeads : ∀ s t, contents (getD (b'.stateAt s).eiLeads t []) =
    contents (getD (b.stateAt s).eiLeads t [])
  ewLeads : ∀ s i v, contents (b'.pendingLeads s i v) = contents (b.pendingLeads s i v)
  covered : ∀ i v, v ∈ b'.covered i ↔ v ∈ b.covered i

/-- `update_leads(event)` does the same for every order of the witnesses. -/
def ScheduleIndependent (env : Env) (b : Builder) (event : Event) (f : SOPFormula) :
    Prop :=
  ∀ env', env.Rescheduled env' → ∀ b1 b2, b.updateLeads env event f = some b1 →
    b.updateLeads env' event f = some b2 → b1.SameLeads b2

theorem pendingLeads_congr {b b' : Builder} (h : b'.ewLeads = b.ewLeads) (s : Nat)
    (i : IID) (v : Value) : b'.pendingLeads s i v = b.pendingLeads s i v := by
  unfold pendingLeads
  rw [h]

theorem covered_congr {b b' : Builder} (h : b'.coveredReadValues = b.coveredReadValues)
    (i : IID) : b'.covered i = b.covered i := by
  unfold covered
  rw [h]

theorem eiLeads_of_unionQueue {env : Env} {depth : Nat} {b b' : Builder}
    {leads : Map Nat (List Lead)} {order : List Nat}
    (h : unionQueue env depth leads b order = some b') (s : Nat) :
    (b'.stateAt s).eiLeads = (b.stateAt s).eiLeads := by
  have hmodify : ∀ (b0 : Builder) t (f : State → List Lead),
      ((b0.modifyState t fun st => { st with leads := f st }).stateAt s).eiLeads =
        (b0.stateAt s).eiLeads := by
    intro b0 t f
    simp only [stateAt, modifyState, List.getD_eq_getElem?_getD, List.getElem?_modify]
    split
    · cases b0.states[s]? <;> rfl
    · cases b0.states[s]? <;> rfl
  refine unionQueue_induct (fun _ b1 => (b1.stateAt s).eiLeads = (b.stateAt s).eiLeads)
    (fun _ i _ b1 b2 _ _ hcall hb1 => ?_) h rfl
  refine consistentUnion_rec
    (fun b1 => (b1.stateAt s).eiLeads = (b.stateAt s).eiLeads) (fun _ _ _ => True)
    ?_ ?_ hcall (fun _ _ _ _ => trivial) hb1
  · intro _ _ b1 t _ _ _ rest _ _ _ hb1
    exact (hmodify b1 t fun _ => rest).trans hb1
  · intro b1 t _ _ r _ hb1 _ _ _
    exact (hmodify b1 t fun st => r.leads st.leads).trans hb1

/-- The unions for the same leads, in another order of the states and of the
leads of each state. -/
theorem leads_unionQueue_congr {env : Env} {depth : Nat} {b b1 b2 : Builder}
    {leads leads' : Map Nat (List Lead)} {order order' : List Nat}
    (hnodup : order.Nodup) (horder : order'.Perm order)
    (hmem : ∀ s l, l ∈ getD leads' s [] ↔ l ∈ getD leads s [])
    (hexplored : ∀ s ∈ order, (b.stateAt s).leads ≠ [])
    (hdistinct : ∀ s ∈ order, Distinct env.fuel b s (getD leads s []))
    (hapart : (∀ s ∈ order, ∀ l ∈ getD leads s [], Local env.fuel b s l) ∨
      ∃ t, (∀ s ∈ order, s ≠ t → ∀ l ∈ getD leads s [], l.mergedSequence = []) ∧
        Single env.fuel b t (getD leads t []))
    (h : unionQueue env depth leads b order = some b1)
    (h' : unionQueue env depth leads' b order' = some b2) (s : Nat) (x : Lead) :
    x ∈ (b2.stateAt s).leads ↔ x ∈ (b1.stateAt s).leads := by
  have hnodup' : order'.Nodup := horder.nodup_iff.mpr hnodup
  rcases hapart with hlocal | ⟨t, hinfeasible, hsingle⟩
  · have hleads : ∀ s ∈ order, LocalLeads env.fuel b s (getD leads s []) :=
      fun s hs => ⟨hexplored s hs, hlocal s hs, hdistinct s hs⟩
    have hleads' : ∀ s ∈ order', LocalLeads env.fuel b s (getD leads' s []) := by
      intro s hs
      have hown := hleads s (horder.mem_iff.mp hs)
      refine ⟨hown.explored, fun l hl => hown.stay l ((hmem s l).mp hl), ?_⟩
      intro l hl l' hl'
      exact hown.distinct l ((hmem s l).mp hl) l' ((hmem s l').mp hl')
    obtain ⟨hother, hown⟩ := unionQueue_of_local hnodup hleads h
    obtain ⟨hother', hown'⟩ := unionQueue_of_local hnodup' hleads' h'
    by_cases hs : s ∈ order
    · rw [hown s hs, hown' s (horder.mem_iff.mpr hs)]
      exact staysIn_congr rfl (hmem s)
    · rw [hother s hs, hother' s fun hs' => hs (horder.mem_iff.mp hs')]
  · have hexplored' : ∀ s ∈ order', (b.stateAt s).leads ≠ [] :=
      fun s hs => hexplored s (horder.mem_iff.mp hs)
    have hinfeasible' : ∀ s ∈ order', s ≠ t → ∀ l ∈ getD leads' s [],
        l.mergedSequence = [] :=
      fun s hs hst l hl => hinfeasible s (horder.mem_iff.mp hs) hst l ((hmem s l).mp hl)
    by_cases ht : t ∈ order
    · have hcall := unionQueue_of_single ht hnodup hexplored hinfeasible h
      have hcall' := unionQueue_of_single (horder.mem_iff.mpr ht) hnodup' hexplored'
        hinfeasible' h'
      rw [consistentUnion_congr (hexplored t ht) (hdistinct t ht) hsingle (hmem t) hcall
        hcall']
    · have hne : ∀ s ∈ order, s ≠ t := fun s hs hst => ht (hst ▸ hs)
      rw [unionQueue_of_infeasible hexplored (fun s hs => hinfeasible s hs (hne s hs)) h,
        unionQueue_of_infeasible hexplored' (fun s hs => hinfeasible' s hs
          (hne s (horder.mem_iff.mp hs))) h']

/-- The analysis of a write is independent of the schedule when the leads for
its witnesses do not compete. -/
theorem scheduleIndependent_of_separate {env : Env} {b : Builder} {event : Event}
    {f : SOPFormula} (hwrite : event.isWrite) (hseparate : b.Separate env event) :
    b.ScheduleIndependent env event f := by
  intro env' hresched b1' b2' h1 h2
  obtain ⟨b1, leads1, hloop1, hunion1⟩ := updateLeads_write hwrite h1
  obtain ⟨b2, leads2, hloop2, hunion2⟩ := updateLeads_write hwrite h2
  unfold backwardAnalysisWrite at hloop1 hloop2
  rw [backwardWriteLoop_rescheduled hresched] at hloop2
  have hperm := exploredWitnesses_rescheduled env env' b event
  obtain ⟨hcovered, hpending, hbare⟩ :=
    backwardWriteLoop_perm hperm (exploredWitnesses_nodup env b event) hloop1 hloop2
  obtain ⟨hmem1, hnodup1, hkeys1⟩ := mem_backwardWriteLoop hloop1
  obtain ⟨hmem2, hnodup2, hkeys2⟩ := mem_backwardWriteLoop hloop2
  -- the loop counter does not matter to the leads
  have hadded : ∀ s l, l ∈ getD leads1 s [] ↔ (s, l) ∈ b.addedLeads env event := by
    intro s l
    rw [hmem1, mem_addedLeads]
    exact exists_congr fun i => and_congr_right fun _ => addsLead_congr rfl rfl
  have hadded2 : ∀ s l, l ∈ getD leads2 s [] ↔ l ∈ getD leads1 s [] := by
    intro s l
    rw [hmem1, hmem2]
    simp only [hperm.mem_iff]
  have horder1 : (env.stateOrder (leads1.map (·.1))).Perm (leads1.map (·.1)) :=
    env.stateOrder_perm _
  have horder : (env.stateOrder (leads2.map (·.1))).Perm
      (env.stateOrder (leads1.map (·.1))) := by
    refine (env.stateOrder_perm _).trans (.trans ?_ horder1.symm)
    refine (List.perm_ext_iff_of_nodup hnodup2 hnodup1).mpr fun s => ?_
    rw [hkeys1, hkeys2]
    simp only [hperm.mem_iff]
  have hlook : ∀ s, b.LooksSame b1.bare s := by
    have hanalysed := analysed_backwardWriteLoop hloop1
    have hbare1 : b1.bare.analysed = b.analysed := hanalysed
    exact looksSame_of_analysed hbare1
  -- what the two analyses do to the states they do to one builder
  have hqueue1 : unionQueue env env.fuel leads1 b1.bare
      (env.stateOrder (leads1.map (·.1))) = some b1'.bare := by
    rw [unionQueue_bare (consistentUnion_bare env env.fuel)]
    exact congrArg (Option.map bare) hunion1
  have hqueue2 : unionQueue env env.fuel leads2 b1.bare
      (env.stateOrder (leads2.map (·.1))) = some b2'.bare := by
    rw [← hbare, unionQueue_bare (consistentUnion_bare env env.fuel)]
    simp only [union, consistentUnion_rescheduled hresched, hresched.fuel,
      hresched.stateOrder] at hunion2
    exact congrArg (Option.map bare) hunion2
  have horderMem : ∀ s, s ∈ env.stateOrder (leads1.map (·.1)) →
      ∃ l, (s, l) ∈ b.addedLeads env event := by
    intro s hs
    obtain ⟨i, hi, l, hadds⟩ := (hkeys1 s).mp (horder1.mem_iff.mp hs)
    exact ⟨l, (hadded s l).mp ((hmem1 s l).mpr ⟨i, hi, hadds⟩)⟩
  have hleads := leads_unionQueue_congr (horder1.nodup_iff.mpr hnodup1) horder hadded2
    (fun s hs => ?_) (fun s _ l hl l' hl' hne hdup => ?_) ?_ hqueue1 hqueue2
  · refine ⟨fun s => contents_congr (hleads s), fun s t => ?_, fun s i v => ?_, fun i v => ?_⟩
    · have heiLeads1 := eiLeads_of_unionQueue hqueue1 s
      have heiLeads2 := eiLeads_of_unionQueue hqueue2 s
      show contents (getD (b2'.bare.stateAt s).eiLeads t []) =
        contents (getD (b1'.bare.stateAt s).eiLeads t [])
      rw [heiLeads1, heiLeads2]
    · rw [pendingLeads_congr (unions_keep hunion1).2,
        pendingLeads_congr (unions_keep hunion2).2, hpending]
    · rw [covered_congr (unions_keep hunion1).1, covered_congr (unions_keep hunion2).1,
        hcovered]
  · obtain ⟨l, hl⟩ := horderMem s hs
    rw [(hlook s).leads]
    exact hseparate.explored _ hl
  · exact (hlook s).idle (hseparate.distinct _ ((hadded s l).mp hl) _ ((hadded s l').mp hl')
      rfl hne hdup)
  · rcases hseparate.apart with hlocal | ⟨t, hinfeasible, hsingle⟩
    · exact .inl fun s _ l hl => (hlook s).isLocal (hlocal _ ((hadded s l).mp hl))
    · refine .inr ⟨t, fun s _ hst l hl => hinfeasible _ ((hadded s l).mp hl) hst, ?_⟩
      intro l hl l' hl' hnot hnot'
      exact hsingle _ ((hadded t l).mp hl) _ ((hadded t l').mp hl') rfl rfl
        (fun hidle => hnot ((hlook t).idle hidle))
        (fun hidle => hnot' ((hlook t).idle hidle))

/-! Two loads of thread 1 and one of thread 2, behind which thread 3 stores to
the same object. -/

/-- Thread 1 loads `x` twice and stores `1` to it, thread 2 loads `x`, thread 3
stores `3` and `1` to `y` and `2` to `x`. -/
def crowdedProgram : Program := fun code results =>
  let x := globalInt 1
  let y := globalInt 2
  match code, results.length with
  | 0, 0 | 1, 0 | 2, 0 | 3, 0 => .skip
  | 0, n => if n ≤ 3 then .spawn n else .ret
  | 1, 1 | 1, 2 => .load x
  | 1, 3 => .store x 1
  | 2, 1 => .load x
  | 3, 1 => .store y 3
  | 3, 2 => .store y 1
  | 3, 3 => .store x 2
  | _, _ => .ret

/-- In the first execution the three loads get a lead each, at three states. -/
theorem scheduleIndependent_of_separate_crowded :
    ∃ b it, Interp.Reachable (.inOrder 60) crowdedProgram b it ∧ ⟨3, 3⟩ ∈ b.enabled ∧
      (b.addedLeads (.inOrder 60) (b.event ⟨3, 3⟩)).map Prod.fst = [0, 1, 3] ∧
      b.ScheduleIndependent (.inOrder 60) (b.event ⟨3, 3⟩) b.forbidden := by
  have hrun : ((Interp.advance (.inOrder 60) crowdedProgram 14 (construct false)
      {}).any fun r => ⟨3, 3⟩ ∈ r.1.enabled && (r.1.event ⟨3, 3⟩).isWrite &&
        (r.1.addedLeads (.inOrder 60) (r.1.event ⟨3, 3⟩)).map Prod.fst = [0, 1, 3] &&
        (∀ a ∈ r.1.addedLeads (.inOrder 60) (r.1.event ⟨3, 3⟩),
          (r.1.stateAt a.1).leads ≠ [] ∧ Local 60 r.1 a.1 a.2 ∧
            ∀ a' ∈ r.1.addedLeads (.inOrder 60) (r.1.event ⟨3, 3⟩), a.1 = a'.1 →
              a.2 = a'.2)) = true := by
    decide +kernel
  rw [Option.any_eq_true] at hrun
  obtain ⟨⟨b, it⟩, hadvance, hrun⟩ := hrun
  simp only [Bool.and_eq_true, decide_eq_true_eq] at hrun
  obtain ⟨⟨⟨henabled, hwrite⟩, hstates⟩, hleads⟩ := hrun
  refine ⟨b, it, (Interp.Reachable.start false).advance hadvance, henabled, hstates,
    scheduleIndependent_of_separate hwrite ⟨?_, ?_, .inl ?_⟩⟩
  · exact fun a ha => (hleads a ha).1
  · intro a ha a' ha' hstate hne
    exact absurd ((hleads a ha).2.2 a' ha' hstate) hne
  · exact fun a ha => (hleads a ha).2.1

/-- In a later execution two of the loads get a lead at the state 1, and that
of the load `⟨2, 1⟩` is infeasible.  If it comes first, the other one is removed
as a duplicate. -/
theorem not_scheduleIndependent :
    ∃ b it, Interp.Reachable (.inOrder 60) crowdedProgram b it ∧ ⟨3, 3⟩ ∈ b.enabled ∧
      (b.event ⟨3, 3⟩).isWrite ∧
      ¬b.ScheduleIndependent (.inOrder 60) (b.event ⟨3, 3⟩) b.forbidden := by
  have hrun : ((Interp.advance (.inOrder 60) crowdedProgram 54 (construct false)
      {}).any fun r => ⟨3, 3⟩ ∈ r.1.enabled && (r.1.event ⟨3, 3⟩).isWrite &&
        ((r.1.updateLeads (.inOrder 60) (r.1.event ⟨3, 3⟩) r.1.forbidden).any fun b1 =>
          ∃ l ∈ (b1.stateAt 1).leads, l.start = [⟨3, 1⟩, ⟨3, 2⟩, ⟨3, 3⟩, ⟨1, 2⟩]) &&
        ((r.1.updateLeads (Env.reversed 60) (r.1.event ⟨3, 3⟩) r.1.forbidden).any fun b2 =>
          ∀ l ∈ (b2.stateAt 1).leads, l.start ≠ [⟨3, 1⟩, ⟨3, 2⟩, ⟨3, 3⟩, ⟨1, 2⟩])) =
      true := by
    decide +kernel
  rw [Option.any_eq_true] at hrun
  obtain ⟨⟨b, it⟩, hadvance, hrun⟩ := hrun
  simp only [Bool.and_eq_true, decide_eq_true_eq, Option.any_eq_true] at hrun
  obtain ⟨⟨⟨henabled, hwrite⟩, b1, h1, l, hl, hstart⟩, b2, h2, hleads⟩ := hrun
  refine ⟨b, it, (Interp.Reachable.start false).advance hadvance, henabled, hwrite, ?_⟩
  intro hindependent
  have hsame := (hindependent _ (Env.rescheduled_reversed 60) b1 b2 h1 h2).leads 1
  have hmem : (l.start, l.constraint, l.forbidden) ∈ contents (b1.stateAt 1).leads :=
    ⟨l, hl, rfl⟩
  rw [← hsame] at hmem
  obtain ⟨l', hl', heq⟩ := hmem
  exact hleads l' hl' ((congrArg Prod.fst heq).trans hstart)

end Builder

end ViEqui
