import ViEqui.Explored

/-!
# New leads in a union

`consistent_union` drops a new lead when a lead of the state stands for it, or
when alpha of the state is a prefix of it, and then hands on the suffix to the
state behind alpha.

* `RepresentedAt`: a lead of the state stands for the lead, or its suffix is
  represented behind alpha.
* `extends_consistentUnion`: what a union keeps of the builder.
* `representedAt_consistentUnion`: when a union represents every new lead.
-/

namespace ViEqui

open AssocMap

/-- `a` stands for `l`: it has the same reads with the same values, it is a
view-adjusted prefix, or it is weakly equivalent. -/
def Lead.Covers (a l : Lead) : Prop :=
  a.SameReads l ∨ a.vaIsPrefix l ∨ a.vaIsWeaklyEquivalent l

theorem Lead.Covers.of_merged_eq {a a' l : Lead} (h : a'.mergedSequence = a.mergedSequence)
    (hcovers : a.Covers l) : a'.Covers l := by
  unfold Lead.Covers Lead.SameReads Lead.vaIsPrefix Lead.vaIsWeaklyEquivalent
    Lead.vaIsWeaklyPrefix at *
  rwa [h]

namespace Builder

/-! ## What a union keeps -/

/-- `alpha` of every state is the index of a lead. -/
def AlphaValid (b : Builder) : Prop :=
  ∀ i, ∀ a ∈ (b.stateAt i).alpha, a < (b.stateAt i).leads.length

/-- The builder `b'` has all that `b` has, with the same merged sequences, and
the same lead as alpha in every state. -/
structure Extends (b b' : Builder) : Prop where
  container : b'.toContainer = b.toContainer
  execution : b'.executionSequence = b.executionSequence
  prefixState : b'.prefixState = b.prefixState
  currentState : b'.currentState = b.currentState
  length : b'.states.length = b.states.length
  alpha : ∀ i, (b'.stateAt i).alpha = (b.stateAt i).alpha
  alphaLead : ∀ i, (b'.stateAt i).alphaLead = (b.stateAt i).alphaLead
  forbidden : ∀ i, (b'.stateAt i).forbidden = (b.stateAt i).forbidden
  mem : ∀ i, (b'.stateAt i).mem = (b.stateAt i).mem
  leads : ∀ i, ∀ a ∈ (b.stateAt i).leads,
    ∃ a' ∈ (b'.stateAt i).leads, a'.mergedSequence = a.mergedSequence

theorem Extends.refl (b : Builder) : Extends b b :=
  ⟨rfl, rfl, rfl, rfl, rfl, fun _ => rfl, fun _ => rfl, fun _ => rfl, fun _ => rfl,
    fun _ a ha => ⟨a, ha, rfl⟩⟩

theorem Extends.trans {b b' b'' : Builder} (h : Extends b b') (h' : Extends b' b'') :
    Extends b b'' where
  container := h'.container.trans h.container
  execution := h'.execution.trans h.execution
  prefixState := h'.prefixState.trans h.prefixState
  currentState := h'.currentState.trans h.currentState
  length := h'.length.trans h.length
  alpha i := (h'.alpha i).trans (h.alpha i)
  alphaLead i := (h'.alphaLead i).trans (h.alphaLead i)
  forbidden i := (h'.forbidden i).trans (h.forbidden i)
  mem i := (h'.mem i).trans (h.mem i)
  leads i a ha := by
    obtain ⟨a', ha', heq⟩ := h.leads i a ha
    obtain ⟨a'', ha'', heq'⟩ := h'.leads i a' ha'
    exact ⟨a'', ha'', heq'.trans heq⟩

theorem stateAt_modifyState (b : Builder) (i j : Nat) (f : State → State) :
    (b.modifyState i f).stateAt j =
      if i = j ∧ j < b.states.length then f (b.stateAt j) else b.stateAt j := by
  by_cases hij : i = j
  · subst hij
    by_cases hlt : i < b.states.length
    · rw [stateAt_modifyState_self hlt, if_pos ⟨rfl, hlt⟩]
    · rw [if_neg (by simp [hlt])]
      simp [stateAt, modifyState, hlt]
  · rw [stateAt_modifyState_ne hij, if_neg (by simp [hij])]

/-- The leads of one state grow, with alpha in its place. -/
theorem extends_modifyState {b : Builder} {state : Nat} {f : List Lead → List Lead}
    (halpha : ∀ a ∈ (b.stateAt state).alpha,
      (f (b.stateAt state).leads)[a]? = (b.stateAt state).leads[a]?)
    (hleads : ∀ a ∈ (b.stateAt state).leads,
      ∃ a' ∈ f (b.stateAt state).leads, a'.mergedSequence = a.mergedSequence)
    (hvalid : AlphaValid b) :
    let b' := b.modifyState state fun s => { s with leads := f s.leads }
    Extends b b' ∧ AlphaValid b' := by
  intro b'
  have hstate : ∀ i, b'.stateAt i = b.stateAt i ∨
      i = state ∧ b'.stateAt i = { b.stateAt i with leads := f (b.stateAt i).leads } := by
    intro i
    have heq := stateAt_modifyState b state i fun s => { s with leads := f s.leads }
    split at heq
    · next h => exact .inr ⟨h.1.symm, heq⟩
    · exact .inl heq
  refine ⟨⟨rfl, rfl, rfl, rfl, ?_, ?_, ?_, ?_, ?_, ?_⟩, ?_⟩
  · exact List.length_modify ..
  · intro i
    rcases hstate i with h | ⟨_, h⟩ <;> rw [h]
  · intro i
    rcases hstate i with h | ⟨rfl, h⟩
    · rw [h]
    · rw [h]
      unfold State.alphaLead
      dsimp only
      cases halpha' : (b.stateAt i).alpha with
      | none => rfl
      | some a =>
        dsimp only
        rw [List.getD_eq_getElem?_getD, List.getD_eq_getElem?_getD, halpha a halpha']
  · intro i
    rcases hstate i with h | ⟨_, h⟩ <;> rw [h]
  · intro i
    rcases hstate i with h | ⟨_, h⟩ <;> rw [h]
  · intro i a ha
    rcases hstate i with h | ⟨rfl, h⟩
    · exact ⟨a, h ▸ ha, rfl⟩
    · rw [h]
      exact hleads a ha
  · intro i a ha
    rcases hstate i with h | ⟨rfl, h⟩
    · rw [h] at ha ⊢
      exact hvalid i a ha
    · rw [h] at ha ⊢
      have hlt := hvalid i a ha
      have hsome := halpha a ha
      rw [List.getElem?_eq_getElem hlt] at hsome
      exact (List.getElem?_eq_some_iff.mp hsome).1

/-- A call replaces only leads behind alpha. -/
def SparesAlpha (env : Env) (b : Builder) (state : Nat) (ls : List Lead) : Prop :=
  ∀ ls', removeDuplicateLeads env.fuel ls = some ls' → ∀ l ∈ ls', ∀ i f,
    Absorbed env.fuel (b.stateAt state) l (.replace i f) →
      ∀ a ∈ (b.stateAt state).alpha, a < i

variable {env : Env} {b b' : Builder} {state : Nat} {ls ls' : List Lead} {r : UnionResult}

/-- A state without leads has no alpha, and forwards nothing. -/
theorem UnionEmpty.eq {depth : Nat} {queue : Map Nat (List Lead)} {rest : List Lead}
    (h : UnionEmpty env depth b state ls' queue rest b') (hvalid : AlphaValid b) :
    rest = ls' ∧ b' = b := by
  have halpha : (b.stateAt state).alpha = none := by
    rw [Option.eq_none_iff_forall_not_mem]
    intro a ha
    have hlt := hvalid state a ha
    rw [h.leads] at hlt
    exact Nat.not_lt_zero a hlt
  have hforwards : ∀ l, forwards b state l = false := by
    intro l
    simp [forwards, halpha]
  have hsuffix : ∀ (queue : Map Nat (List Lead)) (ls : List Lead),
      forwardSuffixLeads env.fuel b state queue ls = some (queue, ls) := by
    intro queue ls
    induction ls with
    | nil => rfl
    | cons l ls ih => simp [forwardSuffixLeads, forwardLead, hforwards l, ih]
  have hforward := h.forward
  rw [hsuffix] at hforward
  cases hforward
  have hcalls := h.calls
  have hnil : env.stateOrder (([] : Map Nat (List Lead)).map (·.1)) = [] :=
    (env.stateOrder_perm _).eq_nil
  rw [hnil] at hcalls
  cases hcalls
  exact ⟨rfl, rfl⟩

/-- The additions of one call extend the builder. -/
theorem extends_loop (hvalid : AlphaValid b) (hspares : SparesAlpha env b state ls)
    (hdup : removeDuplicateLeads env.fuel ls = some ls')
    (hloop : ls'.foldlM (unionStep env.fuel b state) {} = some r) :
    let b' := b.modifyState state fun s => { s with leads := r.leads s.leads }
    Extends b b' ∧ AlphaValid b' := by
  have hrebuild := rebuild_of_loop hloop
  refine extends_modifyState (fun a ha => ?_) (fun a ha => ?_) hvalid
  · rw [UnionResult.leads, List.append_assoc]
    refine getElem?_eraseIndices_append (fun i hi => ?_) (hvalid state a ha) _
    obtain ⟨l, hl, f, hf⟩ := (mem_rem hloop i).mp hi
    exact hspares ls' hdup l hl i f hf a ha
  · rcases mem_rebuild hrebuild ha with hmem | ⟨_, x, hx, hcopy, _⟩
    · exact ⟨a, hmem, rfl⟩
    · exact ⟨x, hx, hcopy.2.2⟩

/-- A union whose calls spare the alphas extends the builder. -/
theorem extends_consistentUnion {depth : Nat} (hvalid : AlphaValid b)
    (hcalls : ∀ b0 state0 ls0, UnionCall env depth b state ls b0 state0 ls0 →
      SparesAlpha env b0 state0 ls0)
    (h : consistentUnion env depth b state ls = some b') : Extends b b' ∧ AlphaValid b' := by
  refine consistentUnion_rec (fun b1 => Extends b b1 ∧ AlphaValid b1) (SparesAlpha env)
    ?_ ?_ h hcalls ⟨.refl b, hvalid⟩
  · rintro depth b0 b1 state ls ls' queue rest _ ⟨hext, hvalid0⟩ hown _
    obtain ⟨_, rfl⟩ := hown.eq hvalid0
    have halpha : (b1.stateAt state).alpha = none := by
      rw [Option.eq_none_iff_forall_not_mem]
      intro a ha
      have hlt := hvalid0 state a ha
      rw [hown.leads] at hlt
      exact Nat.not_lt_zero a hlt
    have hgrow : Extends b1 (b1.modifyState state fun s => { s with leads := rest }) ∧
        AlphaValid (b1.modifyState state fun s => { s with leads := rest }) :=
      extends_modifyState (f := fun _ => rest) (by simp [halpha]) (by simp [hown.leads]) hvalid0
    exact ⟨hext.trans hgrow.1, hgrow.2⟩
  · rintro b0 state ls ls' r hspares ⟨hext, hvalid0⟩ _ hdup hloop
    have hgrow := extends_loop hvalid0 hspares hdup hloop
    exact ⟨hext.trans hgrow.1, hgrow.2⟩

/-! ## Representation -/

/-- `l` is represented in the state: a lead of the state stands for it, or
alpha of the state is a prefix of it and the lead for its suffix is
represented in the state behind alpha. -/
inductive RepresentedAt (fuel : Nat) (b : Builder) : Nat → Lead → Prop
  | here {state : Nat} {l a : Lead} (ha : a ∈ (b.stateAt state).leads) (h : a.Covers l) :
      RepresentedAt fuel b state l
  | behind {state i : Nat} {l x : Lead} (hx : QueuedAs fuel b state l i x)
      (hmerged : x.mergedSequence ≠ []) (h : RepresentedAt fuel b i x) :
      RepresentedAt fuel b state l

theorem QueuedAs.extends {fuel i : Nat} {l x : Lead} (h : Extends b b')
    (hx : QueuedAs fuel b state l i x) : QueuedAs fuel b' state l i x := by
  have hforward : b'.forwardState state = b.forwardState state := by
    unfold forwardState State.alphaSequence prefixStateAt
    rw [h.alphaLead, h.execution, h.prefixState]
  unfold QueuedAs forwards forwardedLead State.alphaSequence at *
  rw [hforward]
  rwa [h.alpha, h.alphaLead, h.alphaLead, h.currentState, h.container, h.forbidden, h.mem]

theorem RepresentedAt.extends {fuel : Nat} {l : Lead} (h : Extends b b')
    (hl : RepresentedAt fuel b state l) : RepresentedAt fuel b' state l := by
  induction hl with
  | here ha hcovers =>
    obtain ⟨a', ha', heq⟩ := h.leads _ _ ha
    exact .here ha' (hcovers.of_merged_eq heq)
  | behind hx hmerged _ ih => exact .behind (hx.extends h) hmerged ih

/-- What keeps a call from losing a new lead. -/
structure LosesNothing (env : Env) (b : Builder) (state : Nat) (ls : List Lead) : Prop where
  /-- for a lead that is dropped as a duplicate, another one stays, or a lead of
  the state stands for it -/
  duplicates : ∀ ls', removeDuplicateLeads env.fuel ls = some ls' → ∀ l ∈ ls,
    l.mergedSequence ≠ [] → l ∉ ls' →
    (∃ a ∈ (b.stateAt state).leads, a.Covers l) ∨
      ∃ l0 ∈ ls', Unabsorbed env.fuel (b.stateAt state) l0 ∧ forwards b state l0 = false ∧
        l0.SameReads l
  /-- a lead that is equal to a lead of the state is covered there -/
  equal : ∀ ls', removeDuplicateLeads env.fuel ls = some ls' → ∀ l ∈ ls',
    l.mergedSequence ≠ [] → ∀ sl ∈ (b.stateAt state).leads,
    l.same sl ∨ sl.vaEquivalent env.fuel l = some true →
      ∃ a ∈ (b.stateAt state).leads, a.Covers l
  /-- a lead that is forwarded is queued, for another state, and feasible -/
  forwarded : ∀ ls', removeDuplicateLeads env.fuel ls = some ls' → ∀ l ∈ ls',
    Unabsorbed env.fuel (b.stateAt state) l → forwards b state l →
    ∃ i x, QueuedAs env.fuel b state l i x ∧ x.mergedSequence ≠ [] ∧ i < b.states.length

/-- What a new lead is absorbed by. -/
theorem covered_of_absorb {fuel : Nat} {s : State} {l : Lead} {k : Nat} {leads : List Lead}
    {a : Absorption} (h : absorb fuel s l k leads = some (some a)) :
    ∃ sl ∈ leads, (l.same sl ∨ sl.vaEquivalent fuel l = some true) ∨ sl.Covers l := by
  induction leads generalizing k with
  | nil => cases h
  | cons sl leads ih =>
    rw [absorb] at h
    split at h
    · next hsame => exact ⟨sl, by simp, .inl (.inl hsame)⟩
    · simp only [Option.bind_eq_bind, Option.bind_eq_some_iff, Option.pure_def] at h
      obtain ⟨equiv, hequiv, h⟩ := h
      split at h
      · next htrue =>
        subst htrue
        exact ⟨sl, by simp, .inl (.inr hequiv)⟩
      · split at h
        · next hprefix =>
          rw [Bool.and_eq_true] at hprefix
          exact ⟨sl, by simp, .inr (.inr (.inl hprefix.2))⟩
        · split at h
          · next hweak =>
            rw [Bool.and_eq_true] at hweak
            exact ⟨sl, by simp, .inr (.inr (.inr hweak.2))⟩
          · obtain ⟨sl', hsl', hor⟩ := ih h
            exact ⟨sl', List.mem_cons_of_mem sl hsl', hor⟩

theorem mem_keys_of_mem_getD {queue : Map Nat (List Lead)} {i : Nat} {x : Lead}
    (h : x ∈ getD queue i []) : i ∈ queue.map (·.1) := by
  induction queue with
  | nil => cases h
  | cons e queue ih =>
    obtain ⟨j, leads⟩ := e
    by_cases hj : j = i
    · simp [hj]
    · have hmem : x ∈ getD queue i [] := by simpa [getD, find?, hj] using h
      exact List.mem_cons_of_mem _ (ih hmem)

/-- A lead that is represented among the queued ones, behind the calls for the
queue. -/
theorem representedAt_unionQueue {depth : Nat} {queue : Map Nat (List Lead)} {order : List Nat}
    (hvalid : AlphaValid b)
    (hcalls : ∀ done i later b1, order = done ++ i :: later →
      unionQueue env depth queue b done = some b1 → ∀ b0 state0 ls0,
      UnionCall env depth b1 i (getD queue i []) b0 state0 ls0 → SparesAlpha env b0 state0 ls0)
    (hrep : ∀ done i later b1 b2, order = done ++ i :: later →
      unionQueue env depth queue b done = some b1 → AlphaValid b1 →
      b1.states.length = b.states.length →
      consistentUnion env depth b1 i (getD queue i []) = some b2 →
      ∀ x ∈ getD queue i [], x.mergedSequence ≠ [] → i < b.states.length →
      RepresentedAt env.fuel b2 i x)
    (h : unionQueue env depth queue b order = some b') :
    (Extends b b' ∧ AlphaValid b') ∧ ∀ i ∈ order, ∀ x ∈ getD queue i [],
      x.mergedSequence ≠ [] → i < b.states.length → RepresentedAt env.fuel b' i x := by
  refine unionQueue_induct (fun done b1 => (Extends b b1 ∧ AlphaValid b1) ∧
    ∀ i ∈ done, ∀ x ∈ getD queue i [], x.mergedSequence ≠ [] → i < b.states.length →
      RepresentedAt env.fuel b1 i x) ?_ h ⟨⟨.refl b, hvalid⟩, by simp⟩
  rintro done i later b1 b2 horder hdone hcall ⟨⟨hext, hvalid1⟩, hbefore⟩
  obtain ⟨hext2, hvalid2⟩ := extends_consistentUnion hvalid1
    (hcalls done i later b1 horder hdone) hcall
  refine ⟨⟨hext.trans hext2, hvalid2⟩, fun j hj x hx hne hlt => ?_⟩
  rcases List.mem_append.mp hj with hj | hj
  · exact (hbefore j hj x hx hne hlt).extends hext2
  · obtain rfl := List.mem_singleton.mp hj
    exact hrep done j later b1 b2 horder hdone hvalid1 hext.length hcall x hx hne hlt

/-- The load alone, which returns the initial value. -/
def lonelyLoad : Lead := .ofStart racingStores [⟨2, 0⟩] {} []

/-- One state, with the lead `lonelyLoad`. -/
def loadState : Builder :=
  { toContainer := racingStores, states := [{ leads := [lonelyLoad] }] }

theorem run_loadState :
    removeDuplicateLeads 10 [racingLead 0 1] = some [racingLead 0 1] ∧
      (racingLead 0 1).mergedSequence ≠ [] ∧
      (∃ e ∈ lonelyLoad.mergedSequence, e.isRead ∧ e.iid = ⟨2, 0⟩ ∧ e.value = 0) ∧
      (¬∃ e ∈ (racingLead 0 1).mergedSequence, e.isRead ∧ e.iid = ⟨2, 0⟩ ∧ e.value = 0) ∧
      ¬lonelyLoad.vaIsPrefix (racingLead 0 1) ∧
      ¬lonelyLoad.vaIsWeaklyEquivalent (racingLead 0 1) ∧
      ¬(racingLead 0 1).same lonelyLoad ∧
      lonelyLoad.vaEquivalent 10 (racingLead 0 1) ≠ some true ∧
      (consistentUnion (.inOrder 10) 1 loadState 0 [racingLead 0 1]).isSome ∧
      (consistentUnion (.inOrder 10) 1 loadState 0 [{}, racingLead 0 1]).map
        (fun b => ((b.stateAt 0).alpha, (b.stateAt 0).leads)) = some (none, [lonelyLoad]) := by
  decide +kernel

theorem not_covers_lonelyLoad : ¬lonelyLoad.Covers (racingLead 0 1) := by
  obtain ⟨-, -, hload, hrace, hprefix, hweak, -⟩ := run_loadState
  rintro (hsame | hisPrefix | hisWeak)
  · exact hrace ((hsame ⟨2, 0⟩ 0).mp hload)
  · exact hprefix hisPrefix
  · exact hweak hisWeak

theorem alphaValid_loadState : AlphaValid loadState := by
  intro i a ha
  cases i with
  | zero => cases ha
  | succ i => cases ha

theorem losesNothing_loadState :
    SparesAlpha (.inOrder 10) loadState 0 [racingLead 0 1] ∧
      LosesNothing (.inOrder 10) loadState 0 [racingLead 0 1] := by
  obtain ⟨hdup, -, -, -, -, -, hdiffer, hinequiv, -⟩ := run_loadState
  have hlist : ∀ ls', removeDuplicateLeads (Env.inOrder 10).fuel [racingLead 0 1] = some ls' →
      ls' = [racingLead 0 1] := by
    intro ls' h
    rw [show (Env.inOrder 10).fuel = 10 from rfl, hdup] at h
    exact (Option.some.inj h).symm
  refine ⟨?_, ?_, ?_, ?_⟩
  · intro ls' _ l _ i f _ a ha
    cases ha
  · intro ls' h l hl _ hnot
    rw [hlist ls' h] at hnot
    exact absurd hl hnot
  · intro ls' h l hl _ sl hsl hequal
    rw [hlist ls' h, List.mem_singleton] at hl
    have hsl : sl = lonelyLoad := List.mem_singleton.mp hsl
    subst hl hsl
    rcases hequal with hsame | hequiv
    · exact absurd hsame hdiffer
    · exact absurd hequiv hinequiv
  · intro ls' h l hl _ hfw
    cases hfw

end Builder

end ViEqui
