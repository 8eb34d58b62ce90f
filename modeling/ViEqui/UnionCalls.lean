import ViEqui.Union

/-!
# The calls of `consistent_union`

`consistent_union` calls itself, for the leads that it forwards to other
states and for the leads of the prefix analysis.  `UnionCall` says which calls
one call makes, itself included, and with which builder.

* `consistentUnion_rec`: a property of the builder that every call keeps on
  its own holds after the whole recursion.
* `mem_rem`, `mem_add`, `mem_fresh`, `mem_queue`: what the loop over the new
  leads collects.
-/

namespace ViEqui

open AssocMap

namespace Builder

/-! ## Inversion -/

/-- The calls for the queued leads of the states `order`. -/
def unionQueue (env : Env) (depth : Nat) (queue : Map Nat (List Lead)) (b : Builder)
    (order : List Nat) : Option Builder :=
  order.foldlM (fun b i => consistentUnion env depth b i (getD queue i [])) b

/-- What a call with no lead in the state does. -/
structure UnionEmpty (env : Env) (depth : Nat) (b : Builder) (state : Nat)
    (ls' : List Lead) (queue : Map Nat (List Lead)) (rest : List Lead)
    (b' : Builder) : Prop where
  leads : (b.stateAt state).leads = []
  forward : forwardSuffixLeads env.fuel b state [] ls' = some (queue, rest)
  calls : unionQueue env depth queue b (env.stateOrder (queue.map (·.1))) = some b'

/-- What a call with leads in the state does before the prefix analysis. -/
structure UnionLoop (env : Env) (depth : Nat) (b : Builder) (state : Nat)
    (ls' : List Lead) (r : UnionResult) (b' : Builder) : Prop where
  leads : (b.stateAt state).leads ≠ []
  loop : ls'.foldlM (unionStep env.fuel b state) {} = some r
  calls : unionQueue env depth r.queue
    (b.modifyState state fun s => { s with leads := r.leads s.leads })
    (env.stateOrder (r.queue.map (·.1))) = some b'

theorem consistentUnion_succ {env : Env} {depth : Nat} {b b' : Builder} {state : Nat}
    {ls : List Lead} (h : consistentUnion env (depth + 1) b state ls = some b') :
    ∃ ls', removeDuplicateLeads env.fuel ls = some ls' ∧
      ((∃ queue rest b1, UnionEmpty env depth b state ls' queue rest b1 ∧
          b' = b1.modifyState state fun s => { s with leads := rest }) ∨
        ∃ r b1, UnionLoop env depth b state ls' r b1 ∧
          (r.derived = [] ∧ b' = b1 ∨
            r.derived ≠ [] ∧ consistentUnion env depth b1 state r.derived = some b')) := by
  simp only [consistentUnion, Option.bind_eq_bind, Option.bind_eq_some_iff,
    Option.pure_def] at h
  obtain ⟨ls', hdup, h⟩ := h
  refine ⟨ls', hdup, ?_⟩
  split at h
  · next hleads =>
    left
    simp only [Option.bind_eq_some_iff] at h
    obtain ⟨⟨queue, rest⟩, hforward, b1, hcalls, h⟩ := h
    exact ⟨queue, rest, b1, ⟨hleads, hforward, hcalls⟩, (Option.some.inj h).symm⟩
  · next hleads =>
    right
    simp only [Option.bind_eq_some_iff] at h
    obtain ⟨r, hloop, b1, hcalls, h⟩ := h
    refine ⟨r, b1, ⟨hleads, hloop, hcalls⟩, ?_⟩
    split at h
    · next hderived => exact .inl ⟨hderived, (Option.some.inj h).symm⟩
    · next hderived => exact .inr ⟨hderived, h⟩

/-! ## The recursion -/

/-- `UnionCall env depth b state ls b0 state0 ls0`: within the call
`consistent_union(state, ls)` with the builder `b`, there is the call
`consistent_union(state0, ls0)` with the builder `b0`. -/
inductive UnionCall (env : Env) :
    Nat → Builder → Nat → List Lead → Builder → Nat → List Lead → Prop
  | self {depth b state ls} : UnionCall env (depth + 1) b state ls b state ls
  | ofEmpty {depth b state ls ls' queue rest b' done i later b1 b0 state0 ls0}
      (hdup : removeDuplicateLeads env.fuel ls = some ls')
      (hempty : UnionEmpty env depth b state ls' queue rest b')
      (horder : env.stateOrder (queue.map (·.1)) = done ++ i :: later)
      (hdone : unionQueue env depth queue b done = some b1)
      (hcall : UnionCall env depth b1 i (getD queue i []) b0 state0 ls0) :
      UnionCall env (depth + 1) b state ls b0 state0 ls0
  | ofLoop {depth b state ls ls' r b' done i later b1 b0 state0 ls0}
      (hdup : removeDuplicateLeads env.fuel ls = some ls')
      (hloop : UnionLoop env depth b state ls' r b')
      (horder : env.stateOrder (r.queue.map (·.1)) = done ++ i :: later)
      (hdone : unionQueue env depth r.queue
        (b.modifyState state fun s => { s with leads := r.leads s.leads }) done = some b1)
      (hcall : UnionCall env depth b1 i (getD r.queue i []) b0 state0 ls0) :
      UnionCall env (depth + 1) b state ls b0 state0 ls0
  | ofDerived {depth b state ls ls' r b' b0 state0 ls0}
      (hdup : removeDuplicateLeads env.fuel ls = some ls')
      (hloop : UnionLoop env depth b state ls' r b')
      (hderived : r.derived ≠ [])
      (hcall : UnionCall env depth b' state r.derived b0 state0 ls0) :
      UnionCall env (depth + 1) b state ls b0 state0 ls0

theorem unionQueue_cons {env : Env} {depth : Nat} {queue : Map Nat (List Lead)}
    {b b' : Builder} {i : Nat} {order : List Nat}
    (h : unionQueue env depth queue b (i :: order) = some b') :
    ∃ b1, consistentUnion env depth b i (getD queue i []) = some b1 ∧
      unionQueue env depth queue b1 order = some b' := by
  simpa [unionQueue, Option.bind_eq_some_iff] using h

theorem unionQueue_concat {env : Env} {depth : Nat} {queue : Map Nat (List Lead)}
    {b b1 b2 : Builder} {done : List Nat} {i : Nat}
    (hdone : unionQueue env depth queue b done = some b1)
    (hcall : consistentUnion env depth b1 i (getD queue i []) = some b2) :
    unionQueue env depth queue b (done ++ [i]) = some b2 := by
  unfold unionQueue at *
  rw [List.foldlM_append, hdone]
  simp [hcall]

/-- A property of the builder behind the first calls of the queue. -/
theorem unionQueue_induct {env : Env} {depth : Nat} {queue : Map Nat (List Lead)}
    (Φ : List Nat → Builder → Prop) {b b' : Builder} {order : List Nat}
    (hstep : ∀ done i later b1 b2, order = done ++ i :: later →
      unionQueue env depth queue b done = some b1 →
      consistentUnion env depth b1 i (getD queue i []) = some b2 → Φ done b1 →
      Φ (done ++ [i]) b2)
    (h : unionQueue env depth queue b order = some b') (hb : Φ [] b) : Φ order b' := by
  -- the induction is on what is left of `order`, behind the calls `done`
  have hgo : ∀ later done b1, order = done ++ later →
      unionQueue env depth queue b done = some b1 → Φ done b1 →
      unionQueue env depth queue b1 later = some b' → Φ (done ++ later) b' := by
    intro later
    induction later with
    | nil =>
      intro done b1 _ _ hb1 hlater
      cases hlater
      rwa [List.append_nil]
    | cons i later ih =>
      intro done b1 horder hdone hb1 hlater
      obtain ⟨b2, hcall, hlater⟩ := unionQueue_cons hlater
      have hnext := ih (done ++ [i]) b2 (by simpa using horder)
        (unionQueue_concat hdone hcall)
        (hstep done i later b1 b2 horder hdone hcall hb1) hlater
      simpa using hnext
  exact hgo order [] b rfl rfl hb h

/-- A property that every call of the queue keeps. -/
theorem unionQueue_rec {env : Env} {depth : Nat} {queue : Map Nat (List Lead)}
    {Φ : Builder → Prop} {b b' : Builder} {order : List Nat}
    (hstep : ∀ done i later b1 b2, order = done ++ i :: later →
      unionQueue env depth queue b done = some b1 →
      consistentUnion env depth b1 i (getD queue i []) = some b2 → Φ b1 → Φ b2)
    (h : unionQueue env depth queue b order = some b') (hb : Φ b) : Φ b' :=
  unionQueue_induct (fun _ => Φ) hstep h hb

/-- A property that one call of the queue brings about, and that the calls
behind it keep. -/
theorem unionQueue_through {env : Env} {depth : Nat} {queue : Map Nat (List Lead)}
    (Φ Ψ : Builder → Prop) {b b1 b' : Builder} {done later : List Nat} {i : Nat}
    (hΦ : ∀ j b1 b2, consistentUnion env depth b1 j (getD queue j []) = some b2 →
      Φ b1 → Φ b2)
    (hΨ : ∀ j b1 b2, consistentUnion env depth b1 j (getD queue j []) = some b2 →
      Ψ b1 → Ψ b2)
    (hdone : unionQueue env depth queue b done = some b1)
    (hi : ∀ b2, consistentUnion env depth b1 i (getD queue i []) = some b2 → Φ b1 → Ψ b2)
    (h : unionQueue env depth queue b (done ++ i :: later) = some b') (hb : Φ b) :
    Ψ b' := by
  have hb1 : Φ b1 := unionQueue_rec (fun _ j _ b1 b2 _ _ hcall => hΦ j b1 b2 hcall) hdone hb
  unfold unionQueue at hdone h
  rw [List.foldlM_append, hdone] at h
  obtain ⟨b2, hcall, hlater⟩ := unionQueue_cons h
  exact unionQueue_rec (fun _ j _ b1 b2 _ _ hcall => hΨ j b1 b2 hcall) hlater
    (hi b2 hcall hb1)

/-- A property of the builder that every call keeps with its own additions. -/
theorem consistentUnion_rec {env : Env} (Φ : Builder → Prop)
    (Q : Builder → Nat → List Lead → Prop)
    (hempty : ∀ depth b b1 state ls ls' queue rest, Q b state ls → Φ b →
      UnionEmpty env depth b state ls' queue rest b1 → Φ b1 →
      Φ (b1.modifyState state fun s => { s with leads := rest }))
    (hloop : ∀ b state ls ls' r, Q b state ls → Φ b → (b.stateAt state).leads ≠ [] →
      removeDuplicateLeads env.fuel ls = some ls' →
      ls'.foldlM (unionStep env.fuel b state) {} = some r →
      Φ (b.modifyState state fun s => { s with leads := r.leads s.leads }))
    {depth : Nat} {b b' : Builder} {state : Nat} {ls : List Lead}
    (h : consistentUnion env depth b state ls = some b')
    (hcalls : ∀ b0 state0 ls0, UnionCall env depth b state ls b0 state0 ls0 →
      Q b0 state0 ls0)
    (hb : Φ b) : Φ b' := by
  induction depth generalizing b b' state ls with
  | zero => cases h
  | succ depth ih =>
    obtain ⟨ls', hdup, h⟩ := consistentUnion_succ h
    have hself : Q b state ls := hcalls _ _ _ .self
    rcases h with ⟨queue, rest, b1, hown, rfl⟩ | ⟨r, b1, hown, h⟩
    · refine hempty depth b b1 state ls ls' queue rest hself hb hown ?_
      refine unionQueue_rec (fun done i later b1 b2 horder hdone hcall hb1 => ?_)
        hown.calls hb
      exact ih hcall (fun _ _ _ hin => hcalls _ _ _
        (.ofEmpty hdup hown horder hdone hin)) hb1
    · have hafter : Φ b1 := by
        refine unionQueue_rec (fun done i later b1 b2 horder hdone hcall hb1 => ?_)
          hown.calls (hloop b state ls ls' r hself hb hown.leads hdup hown.loop)
        exact ih hcall (fun _ _ _ hin => hcalls _ _ _
          (.ofLoop hdup hown horder hdone hin)) hb1
      rcases h with ⟨_, rfl⟩ | ⟨hderived, h⟩
      · exact hafter
      · exact ih h (fun _ _ _ hin => hcalls _ _ _
          (.ofDerived hdup hown hderived hin)) hafter

/-! ## What the loop collects -/

/-- A fold that collects: each step adds what it finds to what is there. -/
theorem foldlM_collect {α β γ : Type} {f : β → α → Option β} (collected : β → γ → Prop)
    (adds : α → γ → Prop)
    (hstep : ∀ r a r', f r a = some r' → ∀ x, collected r' x ↔ collected r x ∨ adds a x)
    {l : List α} {r r' : β} (h : l.foldlM f r = some r') (x : γ) :
    collected r' x ↔ collected r x ∨ ∃ a ∈ l, adds a x := by
  induction l generalizing r with
  | nil =>
    cases h
    simp
  | cons a l ih =>
    simp only [List.foldlM_cons, Option.bind_eq_bind, Option.bind_eq_some_iff] at h
    obtain ⟨r1, hr1, h⟩ := h
    rw [ih h, hstep r a r1 hr1 x]
    simp only [List.exists_mem_cons_iff, or_assoc]

/-- `l` is absorbed as `a` by the leads of the state. -/
def Absorbed (fuel : Nat) (s : State) (l : Lead) (a : Absorption) : Prop :=
  l.mergedSequence ≠ [] ∧ absorb fuel s l 0 s.leads = some (some a)

/-- No lead of the state absorbs `l`. -/
def Unabsorbed (fuel : Nat) (s : State) (l : Lead) : Prop :=
  l.mergedSequence ≠ [] ∧ absorb fuel s l 0 s.leads = some none

/-- The leads that come from the prefix analysis of `l`. -/
def DerivedFrom (fuel : Nat) (b : Builder) (state : Nat) (l x : Lead) : Prop :=
  ∃ i leads, Absorbed fuel (b.stateAt state) l (.weak i) ∧
    weakLeads fuel b state l ((b.stateAt state).leads.drop i) = some leads ∧ x ∈ leads

/-- `l` is queued for the state `i` as `x`. -/
def QueuedAs (fuel : Nat) (b : Builder) (state : Nat) (l : Lead) (i : Nat) (x : Lead) :
    Prop :=
  forwards b state l ∧ i = b.forwardState state ∧ i ≠ b.currentState ∧
    forwardedLead fuel b state i l = some x

theorem forwardLead_cases {fuel : Nat} {b : Builder} {state : Nat} {l : Lead}
    {queue queue' : Map Nat (List Lead)} {forwarded : Bool}
    (h : b.forwardLead fuel state l queue = some (queue', forwarded)) :
    forwards b state l = false ∧ forwarded = false ∧ queue' = queue ∨
      forwards b state l ∧ forwarded = true ∧
        (b.forwardState state = b.currentState ∧ queue' = queue ∨
          ∃ x, QueuedAs fuel b state l (b.forwardState state) x ∧
            queue' = modify queue (b.forwardState state) [] (· ++ [x])) := by
  rw [forwardLead] at h
  split at h
  · next hfw =>
    dsimp only at h
    split at h
    · next hcurrent =>
      cases h
      exact .inr ⟨hfw, rfl, .inl ⟨hcurrent, rfl⟩⟩
    · next hcurrent =>
      simp only [Option.bind_eq_bind, Option.bind_eq_some_iff, Option.pure_def] at h
      obtain ⟨x, hx, h⟩ := h
      cases h
      exact .inr ⟨hfw, rfl, .inr ⟨x, ⟨hfw, rfl, hcurrent, hx⟩, rfl⟩⟩
  · next hfw =>
    cases h
    exact .inl ⟨by simpa using hfw, rfl, rfl⟩

theorem unionStep_cases {fuel : Nat} {b : Builder} {state : Nat} {r r' : UnionResult}
    {l : Lead} (h : unionStep fuel b state r l = some r') :
    l.mergedSequence = [] ∧ r' = r ∨
      (∃ i f, Absorbed fuel (b.stateAt state) l (.replace i f) ∧
        r' = { r with
          rem := i :: r.rem
          add := r.add ++ [((b.stateAt state).leads.getD i default).withForbidden f] }) ∨
      Absorbed fuel (b.stateAt state) l .keep ∧ r' = r ∨
      (∃ i leads, Absorbed fuel (b.stateAt state) l (.weak i) ∧
        weakLeads fuel b state l ((b.stateAt state).leads.drop i) = some leads ∧
        r' = { r with derived := r.derived ++ leads }) ∨
      Unabsorbed fuel (b.stateAt state) l ∧
        (forwards b state l ∧ b.forwardState state = b.currentState ∧ r' = r ∨
          (∃ x, QueuedAs fuel b state l (b.forwardState state) x ∧
            r' = { r with queue := modify r.queue (b.forwardState state) [] (· ++ [x]) }) ∨
          forwards b state l = false ∧ r' = { r with fresh := r.fresh ++ [l] }) := by
  rw [unionStep] at h
  by_cases hmerged : l.mergedSequence = []
  · rw [if_pos hmerged] at h
    exact .inl ⟨hmerged, (Option.some.inj h).symm⟩
  · rw [if_neg hmerged] at h
    simp only [Option.bind_eq_bind, Option.bind_eq_some_iff, Option.pure_def] at h
    obtain ⟨a, habsorb, h⟩ := h
    right
    match a, habsorb, h with
    | some (.replace i f), habsorb, h =>
      exact .inl ⟨i, f, ⟨hmerged, habsorb⟩, (Option.some.inj h).symm⟩
    | some .keep, habsorb, h =>
      exact .inr (.inl ⟨⟨hmerged, habsorb⟩, (Option.some.inj h).symm⟩)
    | some (.weak i), habsorb, h =>
      simp only [Option.bind_eq_some_iff] at h
      obtain ⟨leads, hleads, h⟩ := h
      exact .inr (.inr (.inl ⟨i, leads, ⟨hmerged, habsorb⟩, hleads, (Option.some.inj h).symm⟩))
    | none, habsorb, h =>
      refine .inr (.inr (.inr ⟨⟨hmerged, habsorb⟩, ?_⟩))
      simp only [Option.bind_eq_some_iff] at h
      obtain ⟨⟨queue, forwarded⟩, hforward, h⟩ := h
      rcases forwardLead_cases hforward with ⟨hfw, rfl, rfl⟩ | ⟨hfw, rfl, ⟨hcurrent, rfl⟩ |
        ⟨x, hx, rfl⟩⟩
      · exact .inr (.inr ⟨hfw, (Option.some.inj h).symm⟩)
      · exact .inl ⟨hfw, hcurrent, (Option.some.inj h).symm⟩
      · exact .inr (.inl ⟨x, hx, (Option.some.inj h).symm⟩)

theorem Absorbed.unique {fuel : Nat} {s : State} {l : Lead} {a a' : Absorption}
    (h : Absorbed fuel s l a) (h' : Absorbed fuel s l a') : a = a' := by
  have heq := h.2.symm.trans h'.2
  simpa using heq

theorem Unabsorbed.not_absorbed {fuel : Nat} {s : State} {l : Lead}
    (h : Unabsorbed fuel s l) (a : Absorption) : ¬Absorbed fuel s l a := by
  intro h'
  have heq := h.2.symm.trans h'.2
  cases heq

/-- What one round of the loop adds, for the new lead `l`. -/
structure StepAdds (fuel : Nat) (b : Builder) (state : Nat) (l : Lead)
    (r r' : UnionResult) : Prop where
  rem : ∀ i, i ∈ r'.rem ↔ i ∈ r.rem ∨
    ∃ f, Absorbed fuel (b.stateAt state) l (.replace i f)
  add : ∀ x, x ∈ r'.add ↔ x ∈ r.add ∨
    ∃ i f, Absorbed fuel (b.stateAt state) l (.replace i f) ∧
      x = ((b.stateAt state).leads.getD i default).withForbidden f
  fresh : ∀ x, x ∈ r'.fresh ↔ x ∈ r.fresh ∨
    Unabsorbed fuel (b.stateAt state) l ∧ forwards b state l = false ∧ x = l
  queue : ∀ i x, x ∈ getD r'.queue i [] ↔ x ∈ getD r.queue i [] ∨
    Unabsorbed fuel (b.stateAt state) l ∧ QueuedAs fuel b state l i x
  derived : ∀ x, x ∈ r'.derived ↔ x ∈ r.derived ∨ DerivedFrom fuel b state l x

theorem mem_getD_push {queue : Map Nat (List Lead)} {i j : Nat} {x y : Lead} :
    x ∈ getD (modify queue j [] (· ++ [y])) i [] ↔
      x ∈ getD queue i [] ∨ i = j ∧ x = y := by
  rw [getD, AssocMap.modify, find?_insert]
  by_cases hij : j = i
  · subst hij
    simp [getD]
  · simp [hij, Ne.symm hij, getD]

/-- A round that adds nothing. -/
theorem StepAdds.of_nothing {fuel : Nat} {b : Builder} {state : Nat} {l : Lead}
    {r : UnionResult}
    (hreplace : ∀ i f, ¬Absorbed fuel (b.stateAt state) l (.replace i f))
    (hweak : ∀ i, ¬Absorbed fuel (b.stateAt state) l (.weak i))
    (hfresh : Unabsorbed fuel (b.stateAt state) l → forwards b state l ∧
      b.forwardState state = b.currentState) : StepAdds fuel b state l r r where
  rem i := by simp [hreplace]
  add x := by simp [hreplace]
  fresh x := by
    refine (or_iff_left ?_).symm
    rintro ⟨hun, hnot, _⟩
    rw [(hfresh hun).1] at hnot
    cases hnot
  queue i x := by
    refine (or_iff_left ?_).symm
    rintro ⟨hun, _, hi, hne, _⟩
    exact hne (hi.trans (hfresh hun).2)
  derived x := by
    refine (or_iff_left ?_).symm
    rintro ⟨i, _, hi, _⟩
    exact hweak i hi

theorem stepAdds_of_unionStep {fuel : Nat} {b : Builder} {state : Nat}
    {r r' : UnionResult} {l : Lead} (h : unionStep fuel b state r l = some r') :
    StepAdds fuel b state l r r' := by
  have hder : ∀ x a, Absorbed fuel (b.stateAt state) l a → (∀ i, a ≠ .weak i) →
      ¬DerivedFrom fuel b state l x := by
    rintro x a ha hne ⟨i, _, hi, _⟩
    exact hne i (ha.unique hi)
  rcases unionStep_cases h with ⟨hl, rfl⟩ | ⟨j, f, hj, rfl⟩ | ⟨hk, rfl⟩ |
    ⟨j, leads, hj, hleads, rfl⟩ | ⟨hun, h⟩
  · exact .of_nothing (fun i f hi => hi.1 hl) (fun i hi => hi.1 hl)
      (fun hun => absurd hl hun.1)
  · have hnot : ¬Unabsorbed fuel (b.stateAt state) l := fun hun => hun.not_absorbed _ hj
    refine ⟨fun i => ?_, fun x => ?_, fun x => by simp [hnot], fun i x => by simp [hnot],
      fun x => by simp [hder x _ hj]⟩
    · have hi : (∃ f, Absorbed fuel (b.stateAt state) l (.replace i f)) ↔ i = j := by
        constructor
        · rintro ⟨f', hf'⟩
          cases hj.unique hf'
          rfl
        · rintro rfl
          exact ⟨f, hj⟩
      rw [hi, List.mem_cons, or_comm]
    · have hx : (∃ i f, Absorbed fuel (b.stateAt state) l (.replace i f) ∧
          x = ((b.stateAt state).leads.getD i default).withForbidden f) ↔
          x = ((b.stateAt state).leads.getD j default).withForbidden f := by
        constructor
        · rintro ⟨i', f', hf', hx⟩
          cases hj.unique hf'
          exact hx
        · intro hx
          exact ⟨j, f, hj, hx⟩
      rw [hx, List.mem_append, List.mem_singleton]
  · refine .of_nothing (fun i f hi => ?_) (fun i hi => ?_) (fun hun => ?_)
    · cases hk.unique hi
    · cases hk.unique hi
    · exact absurd hk (hun.not_absorbed _)
  · have hnot : ¬Unabsorbed fuel (b.stateAt state) l := fun hun => hun.not_absorbed _ hj
    have hrep : ∀ i f, ¬Absorbed fuel (b.stateAt state) l (.replace i f) := by
      intro i f hi
      cases hj.unique hi
    refine ⟨fun i => by simp [hrep], fun x => by simp [hrep], fun x => by simp [hnot],
      fun i x => by simp [hnot], fun x => ?_⟩
    have hx : DerivedFrom fuel b state l x ↔ x ∈ leads := by
      constructor
      · rintro ⟨i', leads', hi', hleads', hx⟩
        cases hj.unique hi'
        rw [hleads] at hleads'
        cases hleads'
        exact hx
      · intro hx
        exact ⟨j, leads, hj, hleads, hx⟩
    rw [hx, List.mem_append]
  · have hder' : ∀ x, ¬DerivedFrom fuel b state l x := by
      rintro x ⟨i, _, hi, _⟩
      exact hun.not_absorbed _ hi
    have hrep : ∀ i f, ¬Absorbed fuel (b.stateAt state) l (.replace i f) :=
      fun i f => hun.not_absorbed _
    rcases h with ⟨hfw, hcurrent, rfl⟩ | ⟨x, hx, rfl⟩ | ⟨hfw, rfl⟩
    · exact .of_nothing hrep (fun i => hun.not_absorbed _) (fun _ => ⟨hfw, hcurrent⟩)
    · refine ⟨fun i => by simp [hrep], fun x => by simp [hrep], fun y => ?_, fun i y => ?_,
        fun x => by simp [hder']⟩
      · simp [hx.1]
      · have hy : QueuedAs fuel b state l i y ↔ i = b.forwardState state ∧ y = x := by
          constructor
          · rintro ⟨_, rfl, _, hy⟩
            refine ⟨rfl, ?_⟩
            rw [hx.2.2.2] at hy
            exact (Option.some.inj hy).symm
          · rintro ⟨rfl, rfl⟩
            exact hx
        rw [hy, and_iff_right hun, mem_getD_push]
    · refine ⟨fun i => by simp [hrep], fun x => by simp [hrep], fun y => ?_, fun i y => ?_,
        fun x => by simp [hder']⟩
      · rw [and_iff_right hun, and_iff_right hfw, List.mem_append, List.mem_singleton]
      · refine (or_iff_left ?_).symm
        rintro ⟨_, hfw', _⟩
        rw [hfw] at hfw'
        cases hfw'

section Loop

variable {fuel : Nat} {b : Builder} {state : Nat} {r : UnionResult} {ls : List Lead}

theorem mem_rem (h : ls.foldlM (unionStep fuel b state) {} = some r) (i : Nat) :
    i ∈ r.rem ↔ ∃ l ∈ ls, ∃ f, Absorbed fuel (b.stateAt state) l (.replace i f) := by
  have hmem := foldlM_collect (fun r i => i ∈ r.rem) _
    (fun r l r' hstep => (stepAdds_of_unionStep hstep).rem) h i
  simpa using hmem

theorem mem_add (h : ls.foldlM (unionStep fuel b state) {} = some r) (x : Lead) :
    x ∈ r.add ↔ ∃ l ∈ ls, ∃ i f, Absorbed fuel (b.stateAt state) l (.replace i f) ∧
      x = ((b.stateAt state).leads.getD i default).withForbidden f := by
  have hmem := foldlM_collect (fun r x => x ∈ r.add) _
    (fun r l r' hstep => (stepAdds_of_unionStep hstep).add) h x
  simpa using hmem

theorem mem_fresh (h : ls.foldlM (unionStep fuel b state) {} = some r) (x : Lead) :
    x ∈ r.fresh ↔ x ∈ ls ∧ Unabsorbed fuel (b.stateAt state) x ∧
      forwards b state x = false := by
  have hmem := foldlM_collect (fun r x => x ∈ r.fresh) _
    (fun r l r' hstep => (stepAdds_of_unionStep hstep).fresh) h x
  rw [hmem]
  constructor
  · rintro (hx | ⟨l, hl, hun, hfw, rfl⟩)
    · cases hx
    · exact ⟨hl, hun, hfw⟩
  · rintro ⟨hx, hun, hfw⟩
    exact .inr ⟨x, hx, hun, hfw, rfl⟩

theorem mem_queue (h : ls.foldlM (unionStep fuel b state) {} = some r) (i : Nat) (x : Lead) :
    x ∈ getD r.queue i [] ↔ ∃ l ∈ ls, Unabsorbed fuel (b.stateAt state) l ∧
      QueuedAs fuel b state l i x := by
  have hmem := foldlM_collect (fun r (p : Nat × Lead) => p.2 ∈ getD r.queue p.1 []) _
    (fun r l r' hstep p => (stepAdds_of_unionStep hstep).queue p.1 p.2) h (i, x)
  simpa [getD] using hmem

/-- Every lead that is feasible is absorbed or not. -/
theorem unabsorbed_or_absorbed {r0 : UnionResult}
    (h : ls.foldlM (unionStep fuel b state) r0 = some r) {l : Lead} (hl : l ∈ ls)
    (hne : l.mergedSequence ≠ []) :
    Unabsorbed fuel (b.stateAt state) l ∨ ∃ a, Absorbed fuel (b.stateAt state) l a := by
  induction ls generalizing r0 with
  | nil => cases hl
  | cons l' ls ih =>
    simp only [List.foldlM_cons, Option.bind_eq_bind, Option.bind_eq_some_iff] at h
    obtain ⟨r1, hstep, h⟩ := h
    rcases List.mem_cons.mp hl with rfl | hl
    · rcases unionStep_cases hstep with ⟨hnil, _⟩ | ⟨i, f, hi, _⟩ | ⟨hk, _⟩ |
        ⟨i, _, hi, _⟩ | ⟨hun, _⟩
      · exact absurd hnil hne
      · exact .inr ⟨_, hi⟩
      · exact .inr ⟨_, hk⟩
      · exact .inr ⟨_, hi⟩
      · exact .inl hun
    · exact ih h hl

end Loop

end Builder

end ViEqui
