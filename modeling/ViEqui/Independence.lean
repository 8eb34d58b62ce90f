import Mathlib.Data.List.Dedup
import ViEqui.BackseqSource
import ViEqui.CoveredValues

/-!
# Independent starts

`is_independent_EW_lead` walks over the execution and over the start of a lead
at once, backwards, with an index `s` into the start that it moves below an
event that it has compared and below the write behind it.

* `isIndependentIndexed`: the function with its index.  It has no value when
  it reads `start` outside of its bounds.
* `align`: the events of the start that it compares, and the part of the start
  that is left when the execution ends.
* `isIndependentIndexed_eq`: the answer in terms of these.
* `decidesIndependence_iff`: when the answer is there, and right.
-/

namespace ViEqui

open AssocMap

/-! ## The walk -/

/-- `start[s]`, which the source reads without a check: `none` outside of the
bounds. -/
def Sequence.at? (start : Sequence) (s : Int) : Option IID :=
  if s < 0 then none else start[s.toNat]?

/-- The events of the execution that the walk compares with the start, both
reversed, and the part of the start that is left. -/
def align (write : IID) :
    List (IID × Option Nat) → Sequence → List (IID × Option Nat) × Sequence
  | _, [] => ([], [])
  | [], s => ([], s)
  | (e, ps) :: exec, x :: s =>
    if e = write ∨ e ≠ x then align write exec (x :: s)
    else
      let r := align write exec (Builder.skipWrite write s)
      ((e, ps) :: r.1, r.2)

theorem skipWrite_subset (write : IID) (s : Sequence) :
    Builder.skipWrite write s ⊆ s := by
  cases s with
  | nil => exact List.nil_subset _
  | cons e s =>
    rw [Builder.skipWrite]
    split
    · exact List.subset_cons_self e s
    · exact List.Subset.refl _

theorem align_nil (write : IID) (exec : List (IID × Option Nat)) :
    align write exec [] = ([], []) := by
  cases exec <;> rfl

theorem align_skip {write e x : IID} (h : e = write ∨ e ≠ x) (ps : Option Nat)
    (exec : List (IID × Option Nat)) (s : Sequence) :
    align write ((e, ps) :: exec) (x :: s) = align write exec (x :: s) :=
  if_pos h

theorem align_match {write x : IID} (h : x ≠ write) (ps : Option Nat)
    (exec : List (IID × Option Nat)) (s : Sequence) :
    align write ((x, ps) :: exec) (x :: s) =
      ((x, ps) :: (align write exec (Builder.skipWrite write s)).1,
        (align write exec (Builder.skipWrite write s)).2) :=
  if_neg (not_or.mpr ⟨h, not_not.mpr rfl⟩)

/-- The events compared are events of the execution and of the start. -/
theorem mem_align {write : IID} {exec : List (IID × Option Nat)} {s : Sequence}
    {p : IID × Option Nat} (h : p ∈ (align write exec s).1) :
    p ∈ exec ∧ p.1 ∈ s ∧ p.1 ≠ write := by
  induction exec generalizing s with
  | nil => cases s <;> cases h
  | cons q exec ih =>
    cases s with
    | nil => cases h
    | cons x s =>
      obtain ⟨e, ps⟩ := q
      rw [align] at h
      split at h
      · obtain ⟨hexec, hs⟩ := ih h
        exact ⟨List.mem_cons_of_mem _ hexec, hs⟩
      · next hmatch =>
        rw [not_or, not_not] at hmatch
        rcases List.mem_cons.mp h with rfl | h
        · exact ⟨List.mem_cons_self, by simp [hmatch.2], hmatch.1⟩
        · obtain ⟨hexec, hs, hwrite⟩ := ih h
          exact ⟨List.mem_cons_of_mem _ hexec,
            List.mem_cons_of_mem _ (skipWrite_subset write s hs), hwrite⟩

namespace Builder

/-- The state whose leads `is_independent_EW_lead` compares for an event: the
one that scheduled it, or the head state of the alpha of that one. -/
def leadState (b : Builder) (ps : Option Nat) : Nat :=
  let s := b.stateAt (ps.getD 0)
  if s.executingAlphaLead then
    (b.prefixStateAt (s.leadHeadExecutionPrefix.getD 0)).getD 0
  else ps.getD 0

/-- The test of the walk for an event: its state has two leads that give it
different values. -/
def differs (b : Builder) (p : IID × Option Nat) : Bool :=
  1 < (b.stateAt (b.leadState p.2)).leads.length &&
    !b.independentEventInLeads (b.leadState p.2) p.1

/-- The loop of `is_independent_EW_lead`, over the reversed execution, with
the index `s` into `start`. -/
def independentScan (b : Builder) (start : Sequence) (write : IID) :
    List (IID × Option Nat) → Int → Option Bool
  | [], _ => some true
  | (e, ps) :: exec, s =>
    if s < 0 then some true
    else if e = write then independentScan b start write exec s
    else do
      let x ← start.at? s
      if e ≠ x then independentScan b start write exec s
      else if b.differs (e, ps) then some false
      else do
        let y ← start.at? (s - 1)
        independentScan b start write exec (if y = write then s - 2 else s - 1)

/-- `is_independent_EW_lead`, with its index into `start`. -/
def isIndependentIndexed (b : Builder) (start : Sequence) (write : IID) :
    Option Bool := do
  let s : Int := start.length - 2
  let x ← start.at? s
  b.independentScan start write (b.executionSequence.zip b.prefixState).reverse
    (if x = write then s - 1 else s)

/-- What the walk over the start finds. -/
def compared (b : Builder) (start : Sequence) (write : IID) :
    List (IID × Option Nat) × Sequence :=
  align write (b.executionSequence.zip b.prefixState).reverse
    (skipWrite write start.reverse.tail)

theorem independentLoop_cons (b : Builder) (write : IID) (p : IID × Option Nat)
    (exec : List (IID × Option Nat)) (x : IID) (s : Sequence) :
    independentLoop b write (p :: exec) (x :: s) =
      if p.1 = write ∨ p.1 ≠ x then independentLoop b write exec (x :: s)
      else if b.differs p then false
      else independentLoop b write exec (skipWrite write s) := by
  obtain ⟨e, ps⟩ := p
  rfl

/-- The loop answers false at the first event with two values. -/
theorem independentLoop_eq (b : Builder) (write : IID)
    (exec : List (IID × Option Nat)) (s : Sequence) :
    independentLoop b write exec s =
      !(align write exec s).1.any b.differs := by
  induction exec generalizing s with
  | nil => cases s <;> rfl
  | cons p exec ih =>
    cases s with
    | nil => rfl
    | cons x s =>
      obtain ⟨e, ps⟩ := p
      rw [independentLoop_cons, align]
      split
      · exact ih (x :: s)
      · rw [List.any_cons]
        cases b.differs (e, ps) with
        | true => rfl
        | false => exact ih (skipWrite write s)

/-! ## The index -/

/-- The part of `start` up to the index `s`, reversed. -/
def upTo (start : Sequence) (s : Int) : Sequence :=
  (start.take (s + 1).toNat).reverse

theorem upTo_of_neg (start : Sequence) {s : Int} (hs : s < 0) : upTo start s = [] := by
  have hzero : (s + 1).toNat = 0 := by omega
  rw [upTo, hzero, List.take_zero, List.reverse_nil]

/-- An index inside of the bounds. -/
theorem upTo_of_lt {start : Sequence} {s : Int} (hs : 0 ≤ s)
    (hlen : s < start.length) :
    ∃ x, start.at? s = some x ∧ upTo start s = x :: upTo start (s - 1) := by
  have hlt : s.toNat < start.length := by omega
  have hsucc : (s + 1).toNat = s.toNat + 1 := by omega
  have hsame : (s - 1 + 1).toNat = s.toNat := by omega
  have hneg : ¬s < 0 := by omega
  refine ⟨start[s.toNat], ?_, ?_⟩
  · rw [Sequence.at?, if_neg hneg, List.getElem?_eq_getElem hlt]
  · rw [upTo, upTo, hsucc, hsame, List.take_succ_eq_append_getElem hlt,
      List.reverse_append]
    rfl

theorem at?_zero (start : Sequence) : start.at? 0 = start.head? := by
  cases start <;> rfl

/-- The walk with its index: an event with two values ends it, and it reads
`start[-1]` when it has compared the first event of the start. -/
theorem independentScan_eq (b : Builder) (start : Sequence) (write : IID)
    (exec : List (IID × Option Nat)) (s : Int) (hlen : s < start.length) :
    b.independentScan start write exec s =
      if (align write exec (upTo start s)).1.any b.differs then some false
      else if (align write exec (upTo start s)).2 = [] ∧ 0 ≤ s ∧
          start.head? ≠ some write then none
      else some true := by
  induction exec generalizing s with
  | nil =>
    by_cases hs : s < 0
    · rw [upTo_of_neg start hs]
      have hnot : ¬0 ≤ s := by omega
      simp [independentScan, align, hnot]
    · obtain ⟨x, _, hcons⟩ := upTo_of_lt (by omega) hlen
      rw [hcons]
      simp [independentScan, align]
  | cons p exec ih =>
    obtain ⟨e, ps⟩ := p
    rw [independentScan]
    by_cases hs : s < 0
    · rw [upTo_of_neg start hs, align_nil]
      have hnot : ¬0 ≤ s := by omega
      simp [hs, hnot]
    · obtain ⟨x, hx, hcons⟩ := upTo_of_lt (by omega) hlen
      rw [if_neg hs, hx]
      by_cases hwrite : e = write
      · rw [if_pos hwrite, hcons, align_skip (.inl hwrite), ih s hlen, hcons]
      · rw [if_neg hwrite, Option.bind_eq_bind, Option.bind_some]
        by_cases hmatch : e = x
        · subst hmatch
          rw [if_neg (not_not.mpr rfl), hcons, align_match hwrite, List.any_cons]
          cases hdiffers : b.differs (e, ps) with
          | true => rfl
          | false =>
            rw [if_neg Bool.false_ne_true, Bool.false_or]
            by_cases hzero : s = 0
            · -- the first event of the start was compared
              subst hzero
              have hhead : start.head? ≠ some write := by
                rw [← at?_zero, hx]
                exact fun h => hwrite (Option.some.inj h)
              rw [upTo_of_neg start (by omega)]
              simp [Sequence.at?, skipWrite, align_nil, hhead]
            · have hprev : 0 ≤ s - 1 := by omega
              have hprevLen : s - 1 < start.length := by omega
              obtain ⟨y, hy, hrest⟩ := upTo_of_lt hprev hprevLen
              have hpos : 0 ≤ s := by omega
              have htwo : s - 1 - 1 = s - 2 := by omega
              rw [hy, hrest, skipWrite, Option.bind_some]
              by_cases hskip : y = write
              · rw [if_pos hskip, if_pos hskip, ih (s - 2) (by omega), htwo]
                by_cases hone : s = 1
                · -- the write is the first event of the start
                  subst hone
                  have hhead : start.head? = some write := by
                    rw [← at?_zero, ← hskip]
                    exact hy
                  simp [hhead]
                · have hle : 0 ≤ s - 2 := by omega
                  simp only [hle, hpos, true_and]
              · rw [if_neg hskip, if_neg hskip, ih (s - 1) (by omega), hrest]
                simp only [hprev, hpos, true_and]
        · rw [if_pos hmatch, hcons, align_skip (.inr hmatch), ih s hlen, hcons]

theorem upTo_last (start : Sequence) (h : 2 ≤ start.length) :
    upTo start ((start.length : Int) - 2) = start.reverse.tail := by
  have hlen : ((start.length : Int) - 2 + 1).toNat = start.length - 1 := by omega
  rw [upTo, hlen, List.tail_reverse, List.dropLast_eq_take]

/-- The answer of the indexed function, in terms of what it compares. -/
theorem isIndependentIndexed_eq (b : Builder) {start : Sequence} (write : IID)
    (h : 2 ≤ start.length) :
    b.isIndependentIndexed start write =
      if (b.compared start write).1.any b.differs then some false
      else if (b.compared start write).2 = [] ∧ start.head? ≠ some write then none
      else some true := by
  have hlast : 0 ≤ (start.length : Int) - 2 := by omega
  have hlastLen : (start.length : Int) - 2 < start.length := by omega
  obtain ⟨x, hx, hcons⟩ := upTo_of_lt hlast hlastLen
  rw [upTo_last start h] at hcons
  have hthree : (start.length : Int) - 2 - 1 = start.length - 3 := by omega
  rw [isIndependentIndexed, hx, Option.bind_eq_bind, Option.bind_some, compared,
    hcons, skipWrite]
  by_cases hwrite : x = write
  · rw [if_pos hwrite, if_pos hwrite, independentScan_eq _ _ _ _ _ (by omega), hthree]
    by_cases htwo : start.length = 2
    · -- the start is the write and the read
      have hhead : start.head? = some write := by
        rw [← at?_zero, ← hwrite, ← hx, htwo]
        rfl
      simp [hhead]
    · have hle : (0 : Int) ≤ start.length - 3 := by omega
      simp only [hle, true_and]
  · rw [if_neg hwrite, if_neg hwrite, independentScan_eq _ _ _ _ _ (by omega),
      upTo_last start h, hcons]
    simp only [hlast, true_and]

/-- Where the indexed function has a value, it is the answer of the walk over
the lists. -/
theorem isIndependentEWLead_of_indexed {b : Builder} {start : Sequence} {write : IID}
    {r : Bool} (h : 2 ≤ start.length)
    (hindexed : b.isIndependentIndexed start write = some r) :
    b.isIndependentEWLead start write = r := by
  rw [isIndependentIndexed_eq b write h] at hindexed
  have hloop : b.isIndependentEWLead start write =
      !(b.compared start write).1.any b.differs := independentLoop_eq _ _ _ _
  rw [hloop]
  split at hindexed
  · next hany =>
    cases hindexed
    rw [hany]
    rfl
  · next hany =>
    split at hindexed
    · cases hindexed
    · cases hindexed
      rw [Bool.eq_false_iff.mpr hany]
      rfl

/-! ## The values in the leads -/

/-- All leads of the state that contain the event give it one value. -/
def OneValue (b : Builder) (state : Nat) (e : IID) : Prop :=
  ∀ l ∈ (b.stateAt state).leads, ∀ l' ∈ (b.stateAt state).leads, ∀ x x',
    l.mergedSequence.findIid e = some x → l'.mergedSequence.findIid e = some x' →
      x.value = x'.value

/-- `indepenent_event_in_leads` decides it. -/
theorem independentEventInLeads_iff (b : Builder) (state : Nat) (e : IID) :
    b.independentEventInLeads state e ↔ b.OneValue state e := by
  have hmem : ∀ v, v ∈ (b.stateAt state).leads.filterMap
      (fun l => (l.mergedSequence.findIid e).map (·.value)) ↔
      ∃ l ∈ (b.stateAt state).leads, ∃ x, l.mergedSequence.findIid e = some x ∧
        x.value = v := by
    intro v
    simp only [List.mem_filterMap, Option.map_eq_some_iff]
  have hone : b.OneValue state e ↔ ∀ v v', v ∈ (b.stateAt state).leads.filterMap
      (fun l => (l.mergedSequence.findIid e).map (·.value)) →
      v' ∈ (b.stateAt state).leads.filterMap
        (fun l => (l.mergedSequence.findIid e).map (·.value)) → v = v' := by
    constructor
    · intro h v v' hv hv'
      obtain ⟨l, hl, x, hx, rfl⟩ := (hmem v).mp hv
      obtain ⟨l', hl', x', hx', rfl⟩ := (hmem v').mp hv'
      exact h l hl l' hl' x x' hx hx'
    · intro h l hl l' hl' x x' hx hx'
      exact h _ _ ((hmem _).mpr ⟨l, hl, x, hx, rfl⟩) ((hmem _).mpr ⟨l', hl', x', hx', rfl⟩)
  rw [hone]
  unfold independentEventInLeads
  simp only
  generalize (b.stateAt state).leads.filterMap
    (fun l => (l.mergedSequence.findIid e).map (·.value)) = values
  cases values with
  | nil => simp
  | cons v rest =>
    simp only [List.all_eq_true, decide_eq_true_eq]
    constructor
    · intro h w w' hw hw'
      have hv : ∀ u ∈ v :: rest, u = v := by
        intro u hu
        rcases List.mem_cons.mp hu with rfl | hu
        · rfl
        · exact h u hu
      rw [hv w hw, hv w' hw']
    · intro h w hw
      exact h w v (List.mem_cons_of_mem _ hw) List.mem_cons_self

/-- The test of the walk finds the events with two values: a state with one
lead has one value for each. -/
theorem differs_iff (b : Builder) (p : IID × Option Nat) :
    b.differs p ↔ ¬b.OneValue (b.leadState p.2) p.1 := by
  unfold differs
  rw [← independentEventInLeads_iff, Bool.and_eq_true, decide_eq_true_eq,
    Bool.not_eq_true', Bool.not_eq_true]
  refine and_iff_right_of_imp fun hfalse => ?_
  by_contra hle
  have hone : b.OneValue (b.leadState p.2) p.1 := by
    generalize (b.leadState p.2) = state at hle ⊢
    unfold OneValue
    generalize (b.stateAt state).leads = leads at hle ⊢
    match leads, hle with
    | [], _ => exact nofun
    | [l], _ =>
      intro l1 hl1 l2 hl2 x x' hx hx'
      rw [List.mem_singleton.mp hl1] at hx
      rw [List.mem_singleton.mp hl2, hx] at hx'
      rw [Option.some.inj hx']
    | _ :: _ :: _, hle => simp at hle
  rw [← independentEventInLeads_iff, hfalse] at hone
  cases hone

/-! ## The starts of explored witnesses -/

theorem isRead_of_mem_exploredWitnesses {env : Env} {b : Builder} {event : Event}
    {i : IID} (h : i ∈ b.exploredWitnesses env event) : (b.event i).isRead := by
  unfold exploredWitnesses at h
  simp only at h
  rw [(env.iidOrder_perm _).mem_iff, List.mem_dedup, (env.ompOrder_perm _ _).mem_iff,
    List.mem_map] at h
  obtain ⟨p, hp, rfl⟩ := h
  have hwitness := (List.mem_filter.mp hp).2
  simp only [isWitness, Bool.and_eq_true] at hwitness
  exact hwitness.1.1.1

/-- The start for a read and a write ends with the two. -/
theorem backseq_read {fuel : Nat} {c : Container} {s start : Sequence} {read write : IID}
    (hread : (c.getEvent read).isRead)
    (h : s.backseq fuel c read write [] = some start) (hstart : start ≠ []) :
    ∃ causal, start = causal ++ [write, read] := by
  have hwrite : (c.getEvent read).isWrite = false := by
    cases hw : (c.getEvent read).isWrite with
    | false => rfl
    | true =>
      rw [Event.isRead_eq_false_of_isWrite hw] at hread
      cases hread
  unfold Sequence.backseq at h
  simp only [Sequence.eventIn_nil, hwrite, Bool.false_eq_true, if_false,
    Option.bind_eq_bind, Option.bind_eq_some_iff] at h
  obtain ⟨⟨delim, causal⟩, _, h⟩ := h
  split at h
  · cases h
    exact absurd rfl hstart
  · cases h
    exact ⟨causal, by simp⟩

/-- `union_state_start` only puts the events of an alpha in front. -/
theorem unionStateStart_ends (b : Builder) (idx : Nat) (read write : IID)
    (causal : Sequence) :
    ∃ front, (b.unionStateStart idx read (causal ++ [write, read])).2 =
      front ++ [write, read] := by
  unfold unionStateStart
  simp only
  split
  · exact ⟨_, (List.append_assoc _ _ _).symm⟩
  · exact ⟨causal, rfl⟩

/-! ## The decision -/

/-- Every event of the start, other than the read at its end and the write,
has one value in the leads of the state that scheduled it (or of the head
state of the alpha of that state). -/
def Independent (b : Builder) (start : Sequence) (write : IID) : Prop :=
  ∀ e ∈ start.dropLast, e ≠ write →
    ∀ ps, (e, ps) ∈ b.executionSequence.zip b.prefixState →
      b.OneValue (b.leadState ps) e

/-- `is_independent_EW_lead` decides independence: it stays in the bounds of
the start, and answers true exactly for the independent ones. -/
def DecidesIndependence (b : Builder) (start : Sequence) (write : IID) : Prop :=
  ∃ r, b.isIndependentIndexed start write = some r ∧
    (r = true ↔ b.Independent start write)

theorem mem_compared {b : Builder} {start : Sequence} {write : IID}
    {p : IID × Option Nat} (h : p ∈ (b.compared start write).1) :
    p ∈ b.executionSequence.zip b.prefixState ∧ p.1 ∈ start.dropLast ∧ p.1 ≠ write := by
  obtain ⟨hexec, hstart, hwrite⟩ := mem_align h
  refine ⟨List.mem_reverse.mp hexec, ?_, hwrite⟩
  have hmem := skipWrite_subset write _ hstart
  rw [List.tail_reverse] at hmem
  exact List.mem_reverse.mp hmem

theorem decidesIndependence_iff_of_length {b : Builder} {start : Sequence} {write : IID}
    (h : 2 ≤ start.length) :
    b.DecidesIndependence start write ↔
      (∃ p ∈ (b.compared start write).1, ¬b.OneValue (b.leadState p.2) p.1) ∨
        (b.Independent start write ∧
          (start.head? = some write ∨ (b.compared start write).2 ≠ [])) := by
  have hany : (b.compared start write).1.any b.differs ↔
      ∃ p ∈ (b.compared start write).1, ¬b.OneValue (b.leadState p.2) p.1 := by
    simp only [List.any_eq_true, differs_iff]
  -- an event with two values that is compared is one of the start
  have hnot : (∃ p ∈ (b.compared start write).1, ¬b.OneValue (b.leadState p.2) p.1) →
      ¬b.Independent start write := by
    intro ⟨p, hp, hvalue⟩ hindependent
    obtain ⟨hexec, hstart, hwrite⟩ := mem_compared hp
    exact hvalue (hindependent p.1 hstart hwrite p.2 hexec)
  unfold DecidesIndependence
  rw [isIndependentIndexed_eq b write h]
  by_cases hfound : ∃ p ∈ (b.compared start write).1,
      ¬b.OneValue (b.leadState p.2) p.1
  · rw [if_pos (hany.mpr hfound)]
    refine iff_of_true ⟨false, rfl, ?_⟩ (.inl hfound)
    exact ⟨nofun, fun hindependent => absurd hindependent (hnot hfound)⟩
  · rw [if_neg (fun hdiffers => hfound (hany.mp hdiffers))]
    by_cases hbounds : (b.compared start write).2 = [] ∧ start.head? ≠ some write
    · rw [if_pos hbounds]
      constructor
      · intro ⟨r, hr, _⟩
        cases hr
      · intro hcondition
        rcases hcondition with hfound' | ⟨_, hhead | hleft⟩
        · exact absurd hfound' hfound
        · exact absurd hhead hbounds.2
        · exact absurd hbounds.1 hleft
    · rw [if_neg hbounds]
      have hinside : start.head? = some write ∨ (b.compared start write).2 ≠ [] := by
        by_cases hleft : (b.compared start write).2 = []
        · exact .inl (not_not.mp fun hhead => hbounds ⟨hleft, hhead⟩)
        · exact .inr hleft
      constructor
      · intro ⟨r, hr, hiff⟩
        cases hr
        exact .inr ⟨hiff.mp rfl, hinside⟩
      · intro hcondition
        rcases hcondition with hfound' | ⟨hindependent, _⟩
        · exact absurd hfound' hfound
        · exact ⟨true, rfl, fun _ => hindependent, fun _ => rfl⟩

/-- When `is_independent_EW_lead` decides independence, for the start of an
explored witness as `backseq` makes it, and as `union_state_start` passes it
on: an event that it compares has two values, or no event of the start has and
the start begins with the write or leaves the order of the execution. -/
theorem decidesIndependence_iff {env : Env} {b : Builder} {event : Event} {i : IID}
    {found start : Sequence} (hi : i ∈ b.exploredWitnesses env event)
    (hfound : b.executionSequence.backseq env.fuel b.toContainer i event.iid [] =
      some found) (hne : found ≠ [])
    (hstart : start ∈ [found,
      (b.unionStateStart (b.executionSequence.idxOf i) i found).2]) :
    b.DecidesIndependence start event.iid ↔
      (∃ p ∈ (b.compared start event.iid).1, ¬b.OneValue (b.leadState p.2) p.1) ∨
        (b.Independent start event.iid ∧
          (start.head? = some event.iid ∨ (b.compared start event.iid).2 ≠ [])) := by
  obtain ⟨causal, rfl⟩ :=
    backseq_read (isRead_of_mem_exploredWitnesses hi) hfound hne
  obtain ⟨front, hfront⟩ :=
    b.unionStateStart_ends (b.executionSequence.idxOf i) i event.iid causal
  refine decidesIndependence_iff_of_length ?_
  simp only [hfront, List.mem_cons, List.not_mem_nil, or_false] at hstart
  rcases hstart with rfl | rfl <;> simp

/-- The first store of thread 1 behind the load of thread 3: the start is the
store and the load alone. -/
theorem decidesIndependence_iff_storeAndLoad :
    ∃ b it, Interp.Reachable (.inOrder 60) sameValueProgram b it ∧
      ⟨1, 1⟩ ∈ b.enabled ∧
      b.executionSequence.backseq 60 b.toContainer ⟨3, 1⟩ (b.event ⟨1, 1⟩).iid [] =
        some [⟨1, 1⟩, ⟨3, 1⟩] ∧
      b.DecidesIndependence [⟨1, 1⟩, ⟨3, 1⟩] (b.event ⟨1, 1⟩).iid := by
  have hrun : ((Interp.advance (.inOrder 60) sameValueProgram 10 (construct false)
      {}).any fun r => ⟨1, 1⟩ ∈ r.1.enabled &&
        ⟨3, 1⟩ ∈ r.1.exploredWitnesses (.inOrder 60) (r.1.event ⟨1, 1⟩) &&
        (r.1.event ⟨1, 1⟩).iid = ⟨1, 1⟩ &&
        r.1.executionSequence.backseq 60 r.1.toContainer ⟨3, 1⟩
          (r.1.event ⟨1, 1⟩).iid [] = some [⟨1, 1⟩, ⟨3, 1⟩]) = true := by
    decide +kernel
  rw [Option.any_eq_true] at hrun
  obtain ⟨⟨b, it⟩, hadvance, hrun⟩ := hrun
  simp only [Bool.and_eq_true, decide_eq_true_eq] at hrun
  obtain ⟨⟨⟨henabled, hwitness⟩, hiid⟩, hfound⟩ := hrun
  refine ⟨b, it, (Interp.Reachable.start false).advance hadvance, henabled, hfound, ?_⟩
  refine (decidesIndependence_iff hwitness hfound nofun List.mem_cons_self).mpr
    (.inr ⟨?_, .inl (by rw [hiid]; rfl)⟩)
  intro e he hne
  rw [hiid] at hne
  exact absurd (List.mem_singleton.mp he) hne

/-- The second store of thread 1 behind the load of thread 3: the first one is
compared, and with it the start is exhausted. -/
theorem not_decidesIndependence :
    ∃ b it, Interp.Reachable (.inOrder 60) sameValueProgram b it ∧
      ⟨1, 2⟩ ∈ b.enabled ∧ (b.event ⟨1, 2⟩).isWrite ∧
      ⟨3, 1⟩ ∈ b.exploredWitnesses (.inOrder 60) (b.event ⟨1, 2⟩) ∧
      b.executionSequence.backseq 60 b.toContainer ⟨3, 1⟩ (b.event ⟨1, 2⟩).iid [] =
        some [⟨1, 1⟩, ⟨1, 2⟩, ⟨3, 1⟩] ∧
      ¬b.DecidesIndependence [⟨1, 1⟩, ⟨1, 2⟩, ⟨3, 1⟩] (b.event ⟨1, 2⟩).iid := by
  have hrun : ((Interp.advance (.inOrder 60) sameValueProgram 14 (construct false)
      {}).any fun r => ⟨1, 2⟩ ∈ r.1.enabled && (r.1.event ⟨1, 2⟩).isWrite &&
        ⟨3, 1⟩ ∈ r.1.exploredWitnesses (.inOrder 60) (r.1.event ⟨1, 2⟩) &&
        r.1.executionSequence.backseq 60 r.1.toContainer ⟨3, 1⟩
          (r.1.event ⟨1, 2⟩).iid [] = some [⟨1, 1⟩, ⟨1, 2⟩, ⟨3, 1⟩] &&
        r.1.isIndependentIndexed [⟨1, 1⟩, ⟨1, 2⟩, ⟨3, 1⟩]
          (r.1.event ⟨1, 2⟩).iid = none) = true := by
    decide +kernel
  rw [Option.any_eq_true] at hrun
  obtain ⟨⟨b, it⟩, hadvance, hrun⟩ := hrun
  simp only [Bool.and_eq_true, decide_eq_true_eq] at hrun
  obtain ⟨⟨⟨⟨henabled, hwrite⟩, hwitness⟩, hfound⟩, hnone⟩ := hrun
  refine ⟨b, it, (Interp.Reachable.start false).advance hadvance, henabled, hwrite,
    hwitness, hfound, ?_⟩
  intro ⟨r, hr, _⟩
  rw [hnone] at hr
  cases hr

end Builder

end ViEqui
