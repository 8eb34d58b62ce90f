import ViEqui.Duplicates
import ViEqui.UnionCalls

/-!
# Explored leads in a union

`alpha` of a state is an index into its leads, and `consistent_union` erases
leads by index and appends copies that are not done.

* `Rebuild`: what one call does to the leads of its state.
* `Positioned.rebuild`, `Respected.rebuild`, `Violated.rebuild`: the leads
  after one call.
* `respectsExplored_consistentUnion`: when the union respects what is
  explored.
-/

namespace ViEqui

open AssocMap

namespace Lead

/-- The same constraint, start and merged sequence. -/
def IsCopy (l l' : Lead) : Prop :=
  l.constraint = l'.constraint ∧ l.start = l'.start ∧ l.mergedSequence = l'.mergedSequence

theorem IsCopy.refl (l : Lead) : l.IsCopy l := ⟨rfl, rfl, rfl⟩

theorem IsCopy.symm {l l' : Lead} (h : l.IsCopy l') : l'.IsCopy l :=
  ⟨h.1.symm, h.2.1.symm, h.2.2.symm⟩

theorem IsCopy.trans {l l' l'' : Lead} (h : l.IsCopy l') (h' : l'.IsCopy l'') :
    l.IsCopy l'' :=
  ⟨h.1.trans h'.1, h.2.1.trans h'.2.1, h.2.2.trans h'.2.2⟩

theorem isCopy_withForbidden (l : Lead) (f : SOPFormula) : (l.withForbidden f).IsCopy l :=
  ⟨rfl, rfl, rfl⟩

theorem IsCopy.same {l l' : Lead} (h : l.IsCopy l') : l.same l' := by
  simp [Lead.same, h.1, h.2.1]

end Lead

namespace Builder

/-! ## States -/

theorem stateAt_modifyState_ne {b : Builder} {i j : Nat} {f : State → State}
    (h : i ≠ j) : (b.modifyState i f).stateAt j = b.stateAt j := by
  simp [stateAt, modifyState, h]

theorem stateAt_modifyState_self {b : Builder} {i : Nat} {f : State → State}
    (h : i < b.states.length) : (b.modifyState i f).stateAt i = f (b.stateAt i) := by
  simp [stateAt, modifyState, h]

theorem lt_of_leads_ne_nil {b : Builder} {i : Nat} (h : (b.stateAt i).leads ≠ []) :
    i < b.states.length := by
  by_contra hlt
  rw [stateAt, List.getD_eq_getElem?_getD, List.getElem?_eq_none (by omega)] at h
  exact h rfl

/-! ## Erasing by index -/

section Erase

variable {α : Type} {rem : List Nat}

theorem eraseIndices_append (k : Nat) (l l' : List α) :
    eraseIndices rem k (l ++ l') =
      eraseIndices rem k l ++ eraseIndices rem (k + l.length) l' := by
  induction l generalizing k with
  | nil => simp [eraseIndices]
  | cons a l ih =>
    have hk : k + (a :: l).length = k + 1 + l.length := by
      rw [List.length_cons]
      omega
    rw [List.cons_append, eraseIndices, eraseIndices, ih, hk]
    split <;> rfl

theorem eraseIndices_sublist (k : Nat) (l : List α) : (eraseIndices rem k l).Sublist l := by
  induction l generalizing k with
  | nil => exact List.Sublist.refl _
  | cons a l ih =>
    rw [eraseIndices]
    split
    · exact (ih (k + 1)).cons a
    · exact (ih (k + 1)).cons_cons a

theorem mem_eraseIndices {k j : Nat} {l : List α} {x : α} (hx : l[j]? = some x)
    (hj : k + j ∉ rem) : x ∈ eraseIndices rem k l := by
  obtain ⟨hlt, rfl⟩ := List.getElem?_eq_some_iff.mp hx
  have hsplit : l = l.take j ++ l[j] :: l.drop (j + 1) := by
    rw [List.getElem_cons_drop, List.take_append_drop]
  have hlen : (l.take j).length = j := List.length_take_of_le (by omega)
  have hmem : l[j] ∈ eraseIndices rem k (l.take j ++ l[j] :: l.drop (j + 1)) := by
    rw [eraseIndices_append, hlen, eraseIndices, if_neg hj]
    simp
  rwa [← hsplit] at hmem

/-- An erased element makes the list shorter. -/
theorem length_eraseIndices_lt {k i : Nat} {l : List α} (hi : i ∈ rem) (hki : k ≤ i)
    (hil : i < k + l.length) : (eraseIndices rem k l).length < l.length := by
  induction l generalizing k with
  | nil =>
    rw [List.length_nil] at hil
    omega
  | cons a l ih =>
    have hle : (eraseIndices rem (k + 1) l).length ≤ l.length :=
      (eraseIndices_sublist (k + 1) l).length_le
    rw [List.length_cons] at hil
    rw [eraseIndices, List.length_cons]
    split
    · omega
    · next hk =>
      have hne : k ≠ i := fun h => hk (h ▸ hi)
      have hlt := ih (k := k + 1) (by omega) (by omega)
      rw [List.length_cons]
      omega

theorem eraseIndices_of_notMem {k : Nat} {l : List α}
    (h : ∀ i ∈ rem, k + l.length ≤ i) : eraseIndices rem k l = l := by
  induction l generalizing k with
  | nil => rfl
  | cons a l ih =>
    have hk : k ∉ rem := fun hmem => by
      have hle := h k hmem
      rw [List.length_cons] at hle
      omega
    rw [eraseIndices, if_neg hk, ih]
    intro i hi
    have hle := h i hi
    rw [List.length_cons] at hle
    omega

/-- Nothing up to the index `a` is erased. -/
theorem getElem?_eraseIndices_append {a : Nat} {l : List α} (h : ∀ i ∈ rem, a < i)
    (ha : a < l.length) (l' : List α) : (eraseIndices rem 0 l ++ l')[a]? = l[a]? := by
  have hsplit : l = l.take (a + 1) ++ l.drop (a + 1) := (List.take_append_drop _ _).symm
  have hlen : (l.take (a + 1)).length = a + 1 := List.length_take_of_le (by omega)
  have hfront : eraseIndices rem 0 l =
      l.take (a + 1) ++ eraseIndices rem (a + 1) (l.drop (a + 1)) := by
    conv_lhs => rw [hsplit]
    rw [eraseIndices_append, hlen, Nat.zero_add, eraseIndices_of_notMem]
    intro i hi
    have hai := h i hi
    omega
  rw [hfront, List.append_assoc, List.getElem?_append_left (by omega),
    List.getElem?_take_of_lt (by omega)]

end Erase

/-! ## The leads after one call -/

/-- What one call does to the leads of its state: the leads at the indices
`rem` are replaced by copies that are not done, at the end, and the leads in
`fresh` are no copies of any lead. -/
structure Rebuild (leads : List Lead) (rem : List Nat) (add fresh : List Lead) : Prop where
  lt : ∀ i ∈ rem, i < leads.length
  copied : ∀ x ∈ add, ∃ i ∈ rem, ∃ l, leads[i]? = some l ∧ x.IsCopy l
  kept : ∀ i ∈ rem, ∀ l, leads[i]? = some l → ∃ x ∈ add, x.IsCopy l ∧ x.isDone = false
  fresh_new : ∀ x ∈ fresh, ∀ l ∈ leads, ¬x.IsCopy l

theorem absorb_replace_lt {fuel : Nat} {s : State} {l : Lead} {k i : Nat} {f : SOPFormula}
    {leads : List Lead} (h : absorb fuel s l k leads = some (some (.replace i f))) :
    k ≤ i ∧ i < k + leads.length := by
  induction leads generalizing k with
  | nil => cases h
  | cons sl leads ih =>
    rw [List.length_cons]
    rw [absorb] at h
    split at h
    · cases h
      omega
    · simp only [Option.bind_eq_bind, Option.bind_eq_some_iff, Option.pure_def] at h
      obtain ⟨equiv, _, h⟩ := h
      split at h
      · split at h
        · cases h
        · cases h
          omega
      · split at h
        · split at h
          · cases h
          · cases h
            omega
        · split at h
          · cases h
          · have hi := ih h
            omega

theorem absorb_none {fuel : Nat} {s : State} {l : Lead} {k : Nat} {leads : List Lead}
    (h : absorb fuel s l k leads = some none) : ∀ sl ∈ leads, l.same sl = false := by
  induction leads generalizing k with
  | nil => simp
  | cons sl leads ih =>
    rw [absorb] at h
    split at h
    · cases h
    · next hsame =>
      simp only [Option.bind_eq_bind, Option.bind_eq_some_iff, Option.pure_def] at h
      obtain ⟨equiv, _, h⟩ := h
      split at h
      · cases h
      · split at h
        · cases h
        · split at h
          · cases h
          · intro sl' hsl'
            rcases List.mem_cons.mp hsl' with rfl | hsl'
            · simpa using hsame
            · exact ih h sl' hsl'

theorem rebuild_of_loop {fuel : Nat} {b : Builder} {state : Nat} {ls : List Lead}
    {r : UnionResult} (h : ls.foldlM (unionStep fuel b state) {} = some r) :
    Rebuild (b.stateAt state).leads r.rem r.add r.fresh := by
  have hlt : ∀ l i f, Absorbed fuel (b.stateAt state) l (.replace i f) →
      i < (b.stateAt state).leads.length := by
    intro l i f hi
    have hbounds := absorb_replace_lt hi.2
    omega
  refine ⟨?_, ?_, ?_, ?_⟩
  · intro i hi
    obtain ⟨l, _, f, hl⟩ := (mem_rem h i).mp hi
    exact hlt l i f hl
  · intro x hx
    obtain ⟨l, hl, i, f, hi, rfl⟩ := (mem_add h x).mp hx
    have hlead := hlt l i f hi
    refine ⟨i, (mem_rem h i).mpr ⟨l, hl, f, hi⟩, _, List.getElem?_eq_getElem hlead, ?_⟩
    rw [List.getD_eq_getElem?_getD, List.getElem?_eq_getElem hlead]
    exact Lead.isCopy_withForbidden _ f
  · intro i hi l' hl'
    obtain ⟨l, hl, f, hf⟩ := (mem_rem h i).mp hi
    refine ⟨l'.withForbidden f, (mem_add h _).mpr ⟨l, hl, i, f, hf, ?_⟩,
      Lead.isCopy_withForbidden _ f, rfl⟩
    rw [List.getD_eq_getElem?_getD, hl']
    rfl
  · intro x hx l hl hcopy
    obtain ⟨_, hun, _⟩ := (mem_fresh h x).mp hx
    have hsame := absorb_none hun.2 l hl
    rw [hcopy.same] at hsame
    cases hsame

/-- `A` is at the index `n`, and no other lead is a copy of it. -/
def Positioned (A : Lead) (n : Nat) (leads : List Lead) : Prop :=
  ∃ P Q, leads = P ++ A :: Q ∧ P.length = n ∧ ∀ x ∈ P ++ Q, ¬x.IsCopy A

section Rebuild

variable {leads add fresh : List Lead} {rem : List Nat} {A : Lead}

/-- A lead at an index that is not erased moves to the front by the erased
indices before it. -/
theorem Positioned.rebuild {n : Nat} (hpos : Positioned A n leads)
    (h : Rebuild leads rem add fresh) (hn : n ∉ rem) :
    ∃ m, Positioned A m (eraseIndices rem 0 leads ++ add ++ fresh) ∧ m ≤ n ∧
      ((∃ i ∈ rem, i < n) → m < n) := by
  obtain ⟨P, Q, rfl, rfl, hother⟩ := hpos
  have hsplit : eraseIndices rem 0 (P ++ A :: Q) ++ add ++ fresh =
      eraseIndices rem 0 P ++ A :: (eraseIndices rem (P.length + 1) Q ++ add ++ fresh) := by
    rw [eraseIndices_append, eraseIndices, Nat.zero_add, if_neg hn]
    simp
  refine ⟨(eraseIndices rem 0 P).length, ⟨_, _, hsplit, rfl, ?_⟩, ?_, ?_⟩
  · intro x hx
    simp only [List.mem_append] at hx
    rcases hx with hx | (hx | hx) | hx
    · exact hother x (List.mem_append_left _ ((eraseIndices_sublist _ _).subset hx))
    · exact hother x (List.mem_append_right _ ((eraseIndices_sublist _ _).subset hx))
    · -- a copy of a lead at another index
      obtain ⟨i, hi, l, hl, hcopy⟩ := h.copied x hx
      have hmem : l ∈ P ++ Q := by
        have hne : i ≠ P.length := fun heq => hn (heq ▸ hi)
        rcases Nat.lt_or_gt_of_ne hne with hlt | hgt
        · rw [List.getElem?_append_left hlt] at hl
          exact List.mem_append_left _ (List.mem_of_getElem? hl)
        · rw [List.getElem?_append_right (by omega)] at hl
          obtain ⟨j, hj⟩ : ∃ j, i - P.length = j + 1 := ⟨i - P.length - 1, by omega⟩
          rw [hj, List.getElem?_cons_succ] at hl
          exact List.mem_append_right _ (List.mem_of_getElem? hl)
      intro hA
      exact hother l hmem (hcopy.symm.trans hA)
    · exact h.fresh_new x hx A (by simp)
  · exact (eraseIndices_sublist 0 P).length_le
  · rintro ⟨i, hi, hlt⟩
    exact length_eraseIndices_lt hi (Nat.zero_le i) (by omega)

/-- The leads respect what `E` holds as explored: `A` is at the index `a`, and
every explored lead of `E` is there, without a copy that is not explored. -/
structure Respected (E : List Lead) (A : Lead) (a : Nat) (leads : List Lead) : Prop where
  at_alpha : leads[a]? = some A
  explored : ∀ l ∈ E, l.isDone → l ∈ leads
  no_copy : ∀ l ∈ E, l.isDone → ∀ l' ∈ leads, l'.IsCopy l → l'.isDone

/-- The leads do not: an explored lead of `E` has a copy that is not explored,
or `A` has moved from the index `a`. -/
def Violated (E : List Lead) (A : Lead) (a : Nat) (leads : List Lead) : Prop :=
  (∃ l ∈ E, l.isDone ∧ ∃ l' ∈ leads, l'.IsCopy l ∧ l'.isDone = false) ∨
    ∃ n < a, Positioned A n leads

/-- Only leads behind `a` are replaced, and no copy of an explored lead of
`E`. -/
def Spares (E : List Lead) (a : Nat) (leads : List Lead) (rem : List Nat) : Prop :=
  ∀ i ∈ rem, a < i ∧ ∀ sl, leads[i]? = some sl → ∀ l ∈ E, l.isDone → ¬sl.IsCopy l

theorem mem_rebuild {l : Lead} (h : Rebuild leads rem add fresh) (hl : l ∈ leads) :
    l ∈ eraseIndices rem 0 leads ++ add ++ fresh ∨
      (∃ i ∈ rem, leads[i]? = some l) ∧
        ∃ x ∈ eraseIndices rem 0 leads ++ add ++ fresh, x.IsCopy l ∧ x.isDone = false := by
  obtain ⟨j, hj⟩ := List.mem_iff_getElem?.mp hl
  by_cases hrem : j ∈ rem
  · obtain ⟨x, hx, hcopy, hdone⟩ := h.kept j hrem l hj
    exact .inr ⟨⟨j, hrem, hj⟩, x, by simp [hx], hcopy, hdone⟩
  · have hmem : l ∈ eraseIndices rem 0 leads := mem_eraseIndices hj (by simpa using hrem)
    exact .inl (by simp [hmem])

theorem Respected.rebuild {E : List Lead} {a : Nat} (hresp : Respected E A a leads)
    (h : Rebuild leads rem add fresh) (hspares : Spares E a leads rem) :
    Respected E A a (eraseIndices rem 0 leads ++ add ++ fresh) := by
  have hlt : a < leads.length := (List.getElem?_eq_some_iff.mp hresp.at_alpha).1
  have hstay : ∀ l ∈ E, l.isDone → l ∈ eraseIndices rem 0 leads := by
    intro l hl hdone
    obtain ⟨j, hj⟩ := List.mem_iff_getElem?.mp (hresp.explored l hl hdone)
    refine mem_eraseIndices hj fun hrem => ?_
    exact (hspares _ hrem).2 l (by simpa using hj) l hl hdone (.refl l)
  refine ⟨?_, fun l hl hdone => by simp [hstay l hl hdone], ?_⟩
  · rw [List.append_assoc, getElem?_eraseIndices_append (fun i hi => (hspares i hi).1) hlt]
    exact hresp.at_alpha
  · intro l hl hdone l' hl' hcopy
    simp only [List.mem_append] at hl'
    rcases hl' with (hl' | hl') | hl'
    · exact hresp.no_copy l hl hdone l' ((eraseIndices_sublist _ _).subset hl') hcopy
    · obtain ⟨i, hi, l0, hl0, hcopy0⟩ := h.copied l' hl'
      exact absurd (hcopy0.symm.trans hcopy) ((hspares i hi).2 l0 hl0 l hl hdone)
    · exact absurd hcopy (h.fresh_new l' hl' l (hresp.explored l hl hdone))

/-- A violation stays. -/
theorem Violated.rebuild {E : List Lead} {a : Nat} (hA : A ∈ E) (hAdone : A.isDone)
    (hviol : Violated E A a leads) (h : Rebuild leads rem add fresh) :
    Violated E A a (eraseIndices rem 0 leads ++ add ++ fresh) := by
  rcases hviol with ⟨l, hl, hdone, l', hl', hcopy, hnot⟩ | ⟨n, hna, hpos⟩
  · left
    rcases mem_rebuild h hl' with hmem | ⟨_, x, hx, hx', hxnot⟩
    · exact ⟨l, hl, hdone, l', hmem, hcopy, hnot⟩
    · exact ⟨l, hl, hdone, x, hx, hx'.trans hcopy, hxnot⟩
  · by_cases hn : n ∈ rem
    · left
      obtain ⟨P, Q, rfl, rfl, _⟩ := hpos
      obtain ⟨x, hx, hcopy, hnot⟩ := h.kept P.length hn A (by simp)
      exact ⟨A, hA, hAdone, x, by simp [hx], hcopy, hnot⟩
    · right
      obtain ⟨m, hpos', hmn, _⟩ := hpos.rebuild h hn
      exact ⟨m, by omega, hpos'⟩

/-- A call that does not spare the explored leads violates them. -/
theorem violated_of_not_spares {E : List Lead} {a : Nat} (hA : A ∈ E) (hAdone : A.isDone)
    (hpos : Positioned A a leads) (h : Rebuild leads rem add fresh)
    (hspares : ¬Spares E a leads rem) :
    Violated E A a (eraseIndices rem 0 leads ++ add ++ fresh) := by
  by_cases ha : a ∈ rem
  · left
    obtain ⟨P, Q, rfl, rfl, _⟩ := hpos
    obtain ⟨x, hx, hcopy, hnot⟩ := h.kept P.length ha A (by simp)
    exact ⟨A, hA, hAdone, x, by simp [hx], hcopy, hnot⟩
  · obtain ⟨m, hpos', _, hlt⟩ := hpos.rebuild h ha
    unfold Spares at hspares
    push Not at hspares
    obtain ⟨i, hi, hrest⟩ := hspares
    by_cases hai : a < i
    · -- a copy of an explored lead is replaced
      left
      obtain ⟨sl, hsl, l, hl, hdone, hcopy⟩ := hrest hai
      obtain ⟨x, hx, hcopy', hnot⟩ := h.kept i hi sl hsl
      exact ⟨l, hl, hdone, x, by simp [hx], hcopy'.trans hcopy, hnot⟩
    · right
      have hne : i ≠ a := fun heq => ha (heq ▸ hi)
      exact ⟨m, hlt ⟨i, hi, by omega⟩, hpos'⟩

/-- One call, from leads without a violation or with one. -/
theorem Positioned.rebuild_or {E : List Lead} {a : Nat} (hA : A ∈ E) (hAdone : A.isDone)
    (hpos : Positioned A a leads) (h : Rebuild leads rem add fresh) :
    Positioned A a (eraseIndices rem 0 leads ++ add ++ fresh) ∨
      Violated E A a (eraseIndices rem 0 leads ++ add ++ fresh) := by
  by_cases hspares : Spares E a leads rem
  · have ha : a ∉ rem := fun ha => Nat.lt_irrefl a (hspares a ha).1
    obtain ⟨m, hpos', hma, _⟩ := hpos.rebuild h ha
    rcases Nat.lt_or_eq_of_le hma with hlt | rfl
    · exact .inr (.inr ⟨m, hlt, hpos'⟩)
    · exact .inl hpos'
  · exact .inr (violated_of_not_spares hA hAdone hpos h hspares)

theorem Positioned.ne_nil {n : Nat} (h : Positioned A n leads) : leads ≠ [] := by
  obtain ⟨P, Q, rfl, _⟩ := h
  simp

theorem Violated.ne_nil {E : List Lead} {a : Nat} (h : Violated E A a leads) : leads ≠ [] := by
  rcases h with ⟨_, _, _, l', hl', _⟩ | ⟨n, _, hpos⟩
  · exact List.ne_nil_of_mem hl'
  · exact hpos.ne_nil

end Rebuild

/-! ## The whole union -/

/-- What is explored in `s` is respected in `s'`: `alpha` denotes the same
lead, and no explored lead is there as an unexplored one. -/
structure RespectsExplored (s s' : State) : Prop where
  alpha : s'.alpha = s.alpha
  at_alpha : ∀ a A, s.alpha = some a → s.leads[a]? = some A →
    ∃ A', s'.leads[a]? = some A' ∧ A'.IsCopy A
  explored : ∀ l ∈ s.leads, l.isDone → ∀ l' ∈ s'.leads, l'.IsCopy l → l'.isDone

/-- A call of `consistent_union` replaces only leads behind alpha, and no copy
of an explored lead of `E`. -/
def SparesExplored (env : Env) (E : List Lead) (b : Builder) (state : Nat)
    (ls : List Lead) : Prop :=
  ∀ ls', removeDuplicateLeads env.fuel ls = some ls' → ∀ l ∈ ls', ∀ i f,
    Absorbed env.fuel (b.stateAt state) l (.replace i f) →
      (∀ a ∈ (b.stateAt state).alpha, a < i) ∧
        ∀ sl, (b.stateAt state).leads[i]? = some sl → ∀ l ∈ E, l.isDone → ¬sl.IsCopy l

/-- No explored lead has a copy that is not explored. -/
def Unmixed (leads : List Lead) : Prop :=
  ∀ l ∈ leads, l.isDone → ∀ l' ∈ leads, l'.IsCopy l → l'.isDone

variable {env : Env} {b b' : Builder} {state : Nat} {ls ls' : List Lead} {r : UnionResult}

/-- A property of the leads and the alpha of one state, through the calls for
this and other states. -/
theorem consistentUnion_leads_rec {target : Nat} {alpha : Option Nat}
    (Φ : List Lead → Prop) (Q : Builder → Nat → List Lead → Prop)
    (hne : ∀ leads, Φ leads → leads ≠ [])
    (hrebuild : ∀ b ls ls' r, Q b target ls → (b.stateAt target).alpha = alpha →
      removeDuplicateLeads env.fuel ls = some ls' →
      ls'.foldlM (unionStep env.fuel b target) {} = some r → Φ (b.stateAt target).leads →
      Φ (r.leads (b.stateAt target).leads))
    {depth : Nat} (h : consistentUnion env depth b state ls = some b')
    (hcalls : ∀ b0 state0 ls0, UnionCall env depth b state ls b0 state0 ls0 →
      Q b0 state0 ls0)
    (halpha : (b.stateAt target).alpha = alpha) (hb : Φ (b.stateAt target).leads) :
    (b'.stateAt target).alpha = alpha ∧ Φ (b'.stateAt target).leads := by
  refine consistentUnion_rec
    (fun b => (b.stateAt target).alpha = alpha ∧ Φ (b.stateAt target).leads) Q
    ?_ ?_ h hcalls ⟨halpha, hb⟩
  · rintro depth b b1 state ls ls' queue rest _ ⟨_, hb⟩ hown hb1
    have hstate : state ≠ target := fun heq => hne _ hb (heq ▸ hown.leads)
    rwa [stateAt_modifyState_ne hstate]
  · rintro b state ls ls' r hQ ⟨halpha, hb⟩ hleads hdup hloop
    by_cases hstate : state = target
    · subst hstate
      rw [stateAt_modifyState_self (lt_of_leads_ne_nil hleads)]
      exact ⟨halpha, hrebuild b ls ls' r hQ halpha hdup hloop hb⟩
    · rw [stateAt_modifyState_ne hstate]
      exact ⟨halpha, hb⟩

theorem spares_iff_sparesExplored {E : List Lead} {a : Nat}
    (halpha : (b.stateAt state).alpha = some a)
    (hdup : removeDuplicateLeads env.fuel ls = some ls')
    (hloop : ls'.foldlM (unionStep env.fuel b state) {} = some r) :
    Spares E a (b.stateAt state).leads r.rem ↔ SparesExplored env E b state ls := by
  constructor
  · intro hspares ls'' hdup' l hl i f hi
    rw [hdup] at hdup'
    cases hdup'
    obtain ⟨hai, hsl⟩ := hspares i ((mem_rem hloop i).mpr ⟨l, hl, f, hi⟩)
    refine ⟨fun a' ha' => ?_, hsl⟩
    rw [halpha] at ha'
    cases ha'
    exact hai
  · intro hspares i hi
    obtain ⟨l, hl, f, hf⟩ := (mem_rem hloop i).mp hi
    obtain ⟨ha, hsl⟩ := hspares ls' hdup l hl i f hf
    exact ⟨ha a halpha, hsl⟩

section Respects

variable {depth a : Nat} {A : Lead}

/-- A union whose calls on the state spare the explored leads respects
them. -/
theorem respectsExplored_of_spares (halpha : (b.stateAt state).alpha = some a)
    (hA : (b.stateAt state).leads[a]? = some A) (hcopy : Unmixed (b.stateAt state).leads)
    (hcalls : ∀ b0 ls0, UnionCall env depth b state ls b0 state ls0 →
      SparesExplored env (b.stateAt state).leads b0 state ls0)
    (h : consistentUnion env depth b state ls = some b') :
    RespectsExplored (b.stateAt state) (b'.stateAt state) := by
  have hstart : Respected (b.stateAt state).leads A a (b.stateAt state).leads :=
    ⟨hA, fun l hl _ => hl, hcopy⟩
  obtain ⟨halpha', hend⟩ := consistentUnion_leads_rec
    (Respected (b.stateAt state).leads A a)
    (fun b0 state0 ls0 => state0 = state →
      SparesExplored env (b.stateAt state).leads b0 state ls0)
    (fun leads hresp hnil => by simpa [hnil] using hresp.at_alpha)
    (fun b0 ls0 ls' r hQ halpha0 hdup hloop hresp =>
      hresp.rebuild (rebuild_of_loop hloop)
        ((spares_iff_sparesExplored halpha0 hdup hloop).mpr (hQ rfl)))
    h (fun b0 state0 ls0 hin heq => hcalls b0 ls0 (heq ▸ hin)) halpha hstart
  refine ⟨halpha'.trans halpha.symm, fun a' A' ha' hA' => ?_, hend.no_copy⟩
  rw [halpha] at ha'
  cases ha'
  rw [hA] at hA'
  cases hA'
  exact ⟨A, hend.at_alpha, .refl A⟩

/-- A violation stays, whatever the calls. -/
theorem violated_consistentUnion {E : List Lead} {target : Nat} (hA : A ∈ E)
    (hAdone : A.isDone) (h : consistentUnion env depth b state ls = some b')
    (hb : (b.stateAt target).alpha = some a ∧ Violated E A a (b.stateAt target).leads) :
    (b'.stateAt target).alpha = some a ∧ Violated E A a (b'.stateAt target).leads :=
  consistentUnion_leads_rec (Violated E A a) (fun _ _ _ => True)
    (fun _ hviol => hviol.ne_nil)
    (fun _ _ _ _ _ _ _ hloop hviol => hviol.rebuild hA hAdone (rebuild_of_loop hloop))
    h (fun _ _ _ _ => trivial) hb.1 hb.2

theorem positioned_or_violated_consistentUnion {E : List Lead} {target : Nat} (hA : A ∈ E)
    (hAdone : A.isDone) (h : consistentUnion env depth b state ls = some b')
    (hb : (b.stateAt target).alpha = some a ∧
      (Positioned A a (b.stateAt target).leads ∨ Violated E A a (b.stateAt target).leads)) :
    (b'.stateAt target).alpha = some a ∧
      (Positioned A a (b'.stateAt target).leads ∨ Violated E A a (b'.stateAt target).leads) :=
  consistentUnion_leads_rec (fun leads => Positioned A a leads ∨ Violated E A a leads)
    (fun _ _ _ => True) (fun _ hor => hor.elim Positioned.ne_nil Violated.ne_nil)
    (fun _ _ _ _ _ _ _ hloop hor => hor.elim
      (fun hpos => hpos.rebuild_or hA hAdone (rebuild_of_loop hloop))
      (fun hviol => .inr (hviol.rebuild hA hAdone (rebuild_of_loop hloop))))
    h (fun _ _ _ _ => trivial) hb.1 hb.2

/-- The same for the additions of one call alone. -/
theorem positioned_or_violated_modifyState {E : List Lead} {target : Nat} (hA : A ∈ E)
    (hAdone : A.isDone) (hleads : (b.stateAt state).leads ≠ [])
    (hloop : ls'.foldlM (unionStep env.fuel b state) {} = some r)
    (hb : (b.stateAt target).alpha = some a ∧
      (Positioned A a (b.stateAt target).leads ∨ Violated E A a (b.stateAt target).leads)) :
    let b' := b.modifyState state fun s => { s with leads := r.leads s.leads }
    (b'.stateAt target).alpha = some a ∧
      (Positioned A a (b'.stateAt target).leads ∨ Violated E A a (b'.stateAt target).leads) := by
  intro b'
  by_cases hstate : state = target
  · subst hstate
    rw [stateAt_modifyState_self (lt_of_leads_ne_nil hleads)]
    refine ⟨hb.1, hb.2.elim (fun hpos => ?_) (fun hviol => .inr ?_)⟩
    · exact hpos.rebuild_or hA hAdone (rebuild_of_loop hloop)
    · exact hviol.rebuild hA hAdone (rebuild_of_loop hloop)
  · rw [stateAt_modifyState_ne hstate]
    exact hb

/-- A call within the union that does not spare the explored leads of
`target` violates them. -/
theorem violated_of_call {E : List Lead} {target : Nat} {b0 : Builder} {ls0 : List Lead}
    (hA : A ∈ E) (hAdone : A.isDone) (hcall : UnionCall env depth b state ls b0 target ls0)
    (hnot : ¬SparesExplored env E b0 target ls0)
    (h : consistentUnion env depth b state ls = some b')
    (hb : (b.stateAt target).alpha = some a ∧
      (Positioned A a (b.stateAt target).leads ∨ Violated E A a (b.stateAt target).leads)) :
    (b'.stateAt target).alpha = some a ∧ Violated E A a (b'.stateAt target).leads := by
  induction hcall generalizing b' with
  | @self depth b target ls =>
    have hne : (b.stateAt target).leads ≠ [] := hb.2.elim Positioned.ne_nil Violated.ne_nil
    obtain ⟨ls', hdup, h⟩ := consistentUnion_succ h
    rcases h with ⟨queue, rest, b1, hown, _⟩ | ⟨r, b1, hown, h⟩
    · exact absurd hown.leads hne
    · have hviol : Violated E A a (r.leads (b.stateAt target).leads) := by
        rcases hb.2 with hpos | hviol
        · refine violated_of_not_spares hA hAdone hpos (rebuild_of_loop hown.loop) fun hspares => ?_
          exact hnot ((spares_iff_sparesExplored hb.1 hdup hown.loop).mp hspares)
        · exact hviol.rebuild hA hAdone (rebuild_of_loop hown.loop)
      have hb1 : (b1.stateAt target).alpha = some a ∧
          Violated E A a (b1.stateAt target).leads := by
        refine unionQueue_rec (fun _ _ _ _ _ _ _ hcall => violated_consistentUnion hA hAdone hcall)
          hown.calls ?_
        rw [stateAt_modifyState_self (lt_of_leads_ne_nil hne)]
        exact ⟨hb.1, hviol⟩
      rcases h with ⟨_, rfl⟩ | ⟨_, h⟩
      · exact hb1
      · exact violated_consistentUnion hA hAdone h hb1
  | @ofEmpty depth b state ls ls' queue rest b1 done i later b2 b0 target ls0 hdup hempty
      horder hdone hcall ih =>
    obtain ⟨ls'', hdup', h⟩ := consistentUnion_succ h
    rw [hdup] at hdup'
    cases hdup'
    rcases h with ⟨queue', rest', b3, hown, rfl⟩ | ⟨r, b3, hown, _⟩
    · have hforward := hempty.forward
      rw [hown.forward] at hforward
      cases hforward
      have hcalls := hown.calls
      rw [horder] at hcalls
      have hb3 := unionQueue_through _ _
        (fun _ _ _ hcall => positioned_or_violated_consistentUnion hA hAdone hcall)
        (fun _ _ _ hcall => violated_consistentUnion hA hAdone hcall) hdone
        (fun b4 hb4 hb2 => ih hnot hb4 hb2) hcalls hb
      have hstate : state ≠ target := fun heq =>
        hb.2.elim Positioned.ne_nil Violated.ne_nil (heq ▸ hown.leads)
      rwa [stateAt_modifyState_ne hstate]
    · exact absurd hempty.leads hown.leads
  | @ofLoop depth b state ls ls' r b1 done i later b2 b0 target ls0 hdup hloop horder hdone
      hcall ih =>
    obtain ⟨ls'', hdup', h⟩ := consistentUnion_succ h
    rw [hdup] at hdup'
    cases hdup'
    rcases h with ⟨queue, rest, b3, hown, _⟩ | ⟨r', b3, hown, h⟩
    · exact absurd hown.leads hloop.leads
    · have hr := hloop.loop
      rw [hown.loop] at hr
      cases hr
      have hcalls := hown.calls
      rw [horder] at hcalls
      have hb3 := unionQueue_through _ _
        (fun _ _ _ hcall => positioned_or_violated_consistentUnion hA hAdone hcall)
        (fun _ _ _ hcall => violated_consistentUnion hA hAdone hcall) hdone
        (fun b4 hb4 hb2 => ih hnot hb4 hb2) hcalls
        (positioned_or_violated_modifyState hA hAdone hown.leads hown.loop hb)
      rcases h with ⟨_, rfl⟩ | ⟨_, h⟩
      · exact hb3
      · exact violated_consistentUnion hA hAdone h hb3
  | @ofDerived depth b state ls ls' r b1 b0 target ls0 hdup hloop hderived hcall ih =>
    obtain ⟨ls'', hdup', h⟩ := consistentUnion_succ h
    rw [hdup] at hdup'
    cases hdup'
    rcases h with ⟨queue, rest, b3, hown, _⟩ | ⟨r', b3, hown, h⟩
    · exact absurd hown.leads hloop.leads
    · have hr := hloop.loop
      rw [hown.loop] at hr
      cases hr
      have hb3 := hown.calls
      rw [hloop.calls] at hb3
      cases hb3
      have hb1 := unionQueue_rec (fun _ _ _ _ _ _ _ hcall =>
        positioned_or_violated_consistentUnion hA hAdone hcall)
        hown.calls (positioned_or_violated_modifyState hA hAdone hown.leads hown.loop hb)
      rcases h with ⟨hnil, _⟩ | ⟨_, h⟩
      · exact absurd hnil hderived
      · exact ih hnot h hb1

/-- Every call of the union on the state spares the explored leads, and none
of these has an unexplored copy to begin with. -/
structure UnionSparesExplored (env : Env) (depth : Nat) (b : Builder) (state : Nat)
    (ls : List Lead) : Prop where
  unmixed : Unmixed (b.stateAt state).leads
  spares : ∀ b0 ls0, UnionCall env depth b state ls b0 state ls0 →
    SparesExplored env (b.stateAt state).leads b0 state ls0

/-- `consistent_union` respects what is explored if its calls on the state
spare the explored leads, and, if no other lead is a copy of alpha, only
then. -/
theorem respectsExplored_consistentUnion (halpha : (b.stateAt state).alpha = some a)
    (hA : (b.stateAt state).leads[a]? = some A) (hdone : A.isDone)
    (h : consistentUnion env depth b state ls = some b') :
    (UnionSparesExplored env depth b state ls →
        RespectsExplored (b.stateAt state) (b'.stateAt state)) ∧
      (Positioned A a (b.stateAt state).leads →
        RespectsExplored (b.stateAt state) (b'.stateAt state) →
        UnionSparesExplored env depth b state ls) := by
  refine ⟨fun hcond => respectsExplored_of_spares halpha hA hcond.unmixed hcond.spares h, ?_⟩
  intro hpos hrespects
  have hmem : A ∈ (b.stateAt state).leads := List.mem_of_getElem? hA
  have hviol : ¬Violated (b.stateAt state).leads A a (b'.stateAt state).leads := by
    rintro (⟨l, hl, hldone, l', hl', hcopy, hnot⟩ | ⟨n, hna, P, Q, hsplit, rfl, hother⟩)
    · rw [hrespects.explored l hl hldone l' hl' hcopy] at hnot
      cases hnot
    · obtain ⟨A', hA', hcopy⟩ := hrespects.at_alpha a A halpha hA
      rw [hsplit, List.getElem?_append_right (by omega)] at hA'
      obtain ⟨j, hj⟩ : ∃ j, a - P.length = j + 1 := ⟨a - P.length - 1, by omega⟩
      rw [hj, List.getElem?_cons_succ] at hA'
      exact hother A' (List.mem_append_right _ (List.mem_of_getElem? hA')) hcopy
  constructor
  · intro l hl hldone l' hl' hcopy
    by_contra hnot
    have hstart : Violated (b.stateAt state).leads A a (b.stateAt state).leads :=
      .inl ⟨l, hl, hldone, l', hl', hcopy, by simpa using hnot⟩
    exact hviol (violated_consistentUnion hmem hdone h ⟨halpha, hstart⟩).2
  · intro b0 ls0 hcall
    by_contra hnot
    exact hviol (violated_of_call hmem hdone hcall hnot h ⟨halpha, .inl hpos⟩).2

end Respects

/-- One state, with the replay of the racing stores as its explored lead. -/
def exploredRace : Builder :=
  { toContainer := racingStores
    states := [{ leads := [{ racingLead 0 1 with isDone := true }], alpha := some 0 }] }

/-- The same lead once more. -/
theorem leads_exploredRace :
    (consistentUnion (.inOrder 10) 2 exploredRace 0 [racingLead 0 1]).map
      (fun b => (b.stateAt 0).leads) = some [racingLead 0 1] := by
  decide +kernel

theorem respectsExplored_consistentUnion_race :
    ∃ b', consistentUnion (.inOrder 10) 2 exploredRace 0 [racingLead 0 1] = some b' ∧
      (UnionSparesExplored (.inOrder 10) 2 exploredRace 0 [racingLead 0 1] →
          RespectsExplored (exploredRace.stateAt 0) (b'.stateAt 0)) ∧
        (Positioned { racingLead 0 1 with isDone := true } 0 (exploredRace.stateAt 0).leads →
          RespectsExplored (exploredRace.stateAt 0) (b'.stateAt 0) →
          UnionSparesExplored (.inOrder 10) 2 exploredRace 0 [racingLead 0 1]) := by
  obtain ⟨b', h, _⟩ := Option.map_eq_some_iff.mp leads_exploredRace
  exact ⟨b', h, respectsExplored_consistentUnion (a := 0) rfl rfl rfl h⟩

/-- A new lead with the constraint and the start of an explored one replaces
it by a copy that is not done. -/
theorem not_respectsExplored_consistentUnion :
    ¬∀ (env : Env) (depth : Nat) (b b' : Builder) (state a : Nat) (A : Lead) (ls : List Lead),
      (b.stateAt state).alpha = some a → (b.stateAt state).leads[a]? = some A → A.isDone →
      consistentUnion env depth b state ls = some b' →
      RespectsExplored (b.stateAt state) (b'.stateAt state) := by
  intro h
  obtain ⟨b', hunion, hleads⟩ := Option.map_eq_some_iff.mp leads_exploredRace
  have hrespects := h (.inOrder 10) 2 exploredRace b' 0 0 _ _ rfl rfl rfl hunion
  have hdone := hrespects.explored { racingLead 0 1 with isDone := true } (by decide +kernel) rfl
    (racingLead 0 1) (by simp [hleads]) ⟨rfl, rfl, rfl⟩
  exact absurd hdone (by decide +kernel)

end Builder

end ViEqui
