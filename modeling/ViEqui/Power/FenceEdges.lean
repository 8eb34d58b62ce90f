import ViEqui.Power.FenceIndices

/-!
# The edges of hb that fences give

`fences_to_hb` is called for an event that is not committed yet, and looks for the committed
events that a fence separates from it.  The way back agrees with the fences between the two
events.  The way forth takes -1, which stands for no fence, for a bound that each position
passes: it orders a store before a load that was committed first, although there is only an
eieio between them.
-/

namespace ViEqui.Power

namespace Session

variable {cfg : Config} {S : Session} {a b : IID} {t : FenceType}

/-- A fence of the kind is between `a` and `b`. -/
def Between (S : Session) (t : FenceType) (a b : IID) : Prop :=
  ∃ f ∈ S.fences, f.proc = a.pid ∧ f.type = t ∧ a.idx ≤ f.pos ∧ f.pos < b.idx

/-- A fence of the kind is behind `a`. -/
def Behind (S : Session) (t : FenceType) (a : IID) : Prop :=
  ∃ f ∈ S.fences, f.proc = a.pid ∧ f.type = t ∧ a.idx ≤ f.pos

theorem Between.behind (h : S.Between t a b) : S.Behind t a :=
  h.imp fun _ hf => ⟨hf.1, hf.2.1, hf.2.2.1, hf.2.2.2.1⟩

/-- Fences between `a` and `b` order them. -/
def FenceOrdered (S : Session) (a b : IID) : Prop :=
  S.Between .sync a b ∨
    S.Between .lwsync a b ∧ ((S.tb.getEvt a).hasLoad = true ∨ (S.tb.getEvt b).hasStore = true) ∨
    S.Between .eieio a b ∧ (S.tb.getEvt a).hasStore = true ∧ (S.tb.getEvt b).hasStore = true

/-- `fences_to_hb` enters the edge between `a` and `b` exactly where the fences order them,
whichever of the two is committed first. -/
structure FencesRight (S : Session) (a b : IID) : Prop where
  bwd : (S.tb.getEvt a).committed = true → (S.tb.getEvt b).committed = false →
    (a ∈ (S.tb.fencesToHb b).bwd ↔ S.FenceOrdered a b)
  fwd : (S.tb.getEvt b).committed = true → (S.tb.getEvt a).committed = false →
    (b ∈ (S.tb.fencesToHb a).fwd ↔ S.FenceOrdered a b)

/-- An eieio is between the store `a` and `b`, which does not store, and no sync is behind `a`;
or `a` loads, and no lwsync is behind it. -/
def Escapes (S : Session) (a b : IID) : Prop :=
  S.Between .eieio a b ∧ (S.tb.getEvt a).hasStore = true ∧ (S.tb.getEvt b).hasStore = false ∧
    (¬S.Behind .sync a ∨ ¬S.Behind .lwsync a ∧ (S.tb.getEvt a).hasLoad = true)

/-! ## The indices of two events -/

theorem lt_fenceBefore (h : Run cfg S) (hb : b ∈ S.tb.fetched) (hpid : a.pid = b.pid)
    (ha : 0 < a.idx) (ht : t ≠ .isync) :
    ((a.idx - 1 : Nat) : Int) < (S.tb.getEvt b).fenceBefore t ↔ S.Between t a b := by
  have hle := (TB.mem_fetched.mp hb).2
  refine ((h.fenceInv b.pid t ht).before (b.idx - 1) (by omega) (a.idx - 1)).trans ?_
  unfold HasFence Between
  constructor
  · rintro ⟨n, ⟨f, hf, hp, htype, rfl⟩, hlt, hle'⟩
    exact ⟨f, hf, hp.trans hpid.symm, htype, by omega, by omega⟩
  · rintro ⟨f, hf, hp, htype, hle', hlt⟩
    exact ⟨f.pos, ⟨f, hf, hp.trans hpid, htype, rfl⟩, by omega, by omega⟩

theorem fenceAfter_eq (h : Run cfg S) (ha : a ∈ S.tb.fetched) (ht : t ≠ .isync) :
    (S.tb.getEvt a).fenceAfter t = -1 ↔ ¬S.Behind t a := by
  have hle := (TB.mem_fetched.mp ha).2
  refine ((h.fenceInv a.pid t ht).none (a.idx - 1) (by omega)).trans (not_congr ?_)
  unfold HasFence Behind
  constructor
  · rintro ⟨n, ⟨f, hf, hp, htype, rfl⟩, hlt⟩
    exact ⟨f, hf, hp, htype, by omega⟩
  · rintro ⟨f, hf, hp, htype, hle'⟩
    exact ⟨f.pos, ⟨f, hf, hp, htype, rfl⟩, by omega⟩

theorem fenceAfter_le (h : Run cfg S) (ha : a ∈ S.tb.fetched) (hb : 0 < b.idx)
    (ht : t ≠ .isync) (hne : (S.tb.getEvt a).fenceAfter t ≠ -1) :
    (S.tb.getEvt a).fenceAfter t ≤ ((b.idx - 1 : Nat) : Int) ↔ S.Between t a b := by
  have hle := (TB.mem_fetched.mp ha).2
  refine ((h.fenceInv a.pid t ht).after (a.idx - 1) (by omega) hne (b.idx - 1)).trans ?_
  unfold HasFence Between
  constructor
  · rintro ⟨n, ⟨f, hf, hp, htype, rfl⟩, hlt, hle'⟩
    exact ⟨f, hf, hp, htype, by omega, by omega⟩
  · rintro ⟨f, hf, hp, htype, hle', hlt⟩
    exact ⟨f.pos, ⟨f, hf, hp, htype, rfl⟩, by omega, by omega⟩

end Session

namespace TB

variable {tb : TB} {a b : IID}

/-- Where the loop over the later events starts, or -1. -/
def forthBound (evt : PAEvent) : Int :=
  let b := evt.lwsyncIdxAfter
  let b := if b = -1 ∨ evt.syncIdxAfter ≠ -1 ∧ evt.syncIdxAfter < b then evt.syncIdxAfter else b
  if evt.hasStore ∧ (b = -1 ∨ evt.eieioIdxAfter ≠ -1 ∧ evt.eieioIdxAfter < b) then
    evt.eieioIdxAfter else b

theorem fencesToHb_fwd (tb : TB) (a : IID) :
    (tb.fencesToHb a).fwd = .ofList ((if forthBound (tb.getEvt a) = -1 then [] else
      (List.range' (forthBound (tb.getEvt a)).toNat
        ((tb.thread a.pid).fchCount - (forthBound (tb.getEvt a)).toNat)).filter fun (i : Nat) =>
          (tb.fchAt a.pid i).committed ∧ ((tb.getEvt a).syncIdxAfter ≤ i ∨
            (tb.getEvt a).lwsyncIdxAfter ≤ i ∧
              ((tb.fchAt a.pid i).hasStore ∨ (tb.getEvt a).hasLoad) ∨
            (tb.getEvt a).eieioIdxAfter ≤ i ∧
              (tb.getEvt a).hasStore ∧ (tb.fchAt a.pid i).hasStore)).map
        fun i => ⟨a.pid, i + 1⟩) := rfl

theorem mem_fencesToHb_bwd (hpid : a.pid = b.pid) (ha : 0 < a.idx) :
    a ∈ (tb.fencesToHb b).bwd ↔ (tb.getEvt a).committed = true ∧
      (((a.idx - 1 : Nat) : Int) < (tb.getEvt b).syncIdxBefore ∨
        ((a.idx - 1 : Nat) : Int) < (tb.getEvt b).lwsyncIdxBefore ∧
          ((tb.getEvt b).hasStore = true ∨ (tb.getEvt a).hasLoad = true) ∨
        ((a.idx - 1 : Nat) : Int) < (tb.getEvt b).eieioIdxBefore ∧
          (tb.getEvt b).hasStore = true ∧ (tb.getEvt a).hasStore = true) := by
  obtain ⟨p, k⟩ := a
  obtain ⟨i, rfl⟩ : ∃ i, k = i + 1 := ⟨k - 1, by dsimp only at ha; omega⟩
  dsimp only at hpid
  subst hpid
  unfold fencesToHb
  dsimp only
  rw [VecSet.mem_ofList, List.mem_map]
  simp only [List.mem_filter, List.mem_range, decide_eq_true_eq, IID.mk.injEq, true_and,
    Nat.add_right_cancel_iff, exists_eq_right, Nat.add_sub_cancel]
  -- the bound of the loop leaves out no event
  refine and_iff_right_of_imp fun h => ?_
  rw [Int.lt_toNat]
  rcases h.2 with hlt | ⟨hlt, -⟩ | ⟨hlt, hstore, -⟩
  · split_ifs
    · exact lt_max_of_lt_left (lt_max_of_lt_right hlt)
    · exact lt_max_of_lt_right hlt
  · split_ifs
    · exact lt_max_of_lt_left (lt_max_of_lt_left hlt)
    · exact lt_max_of_lt_left hlt
  · rw [if_pos hstore]
    exact lt_max_of_lt_right hlt

theorem mem_fencesToHb_fwd (hpid : a.pid = b.pid) (hb : b ∈ tb.fetched) :
    b ∈ (tb.fencesToHb a).fwd ↔ (tb.getEvt b).committed = true ∧
      forthBound (tb.getEvt a) ≠ -1 ∧ forthBound (tb.getEvt a) ≤ ((b.idx - 1 : Nat) : Int) ∧
      ((tb.getEvt a).syncIdxAfter ≤ ((b.idx - 1 : Nat) : Int) ∨
        (tb.getEvt a).lwsyncIdxAfter ≤ ((b.idx - 1 : Nat) : Int) ∧
          ((tb.getEvt b).hasStore = true ∨ (tb.getEvt a).hasLoad = true) ∨
        (tb.getEvt a).eieioIdxAfter ≤ ((b.idx - 1 : Nat) : Int) ∧
          (tb.getEvt a).hasStore = true ∧ (tb.getEvt b).hasStore = true) := by
  obtain ⟨p, k⟩ := b
  have hle := (mem_fetched.mp hb).2
  obtain ⟨i, rfl⟩ : ∃ i, k = i + 1 := ⟨k - 1, by dsimp only at hle; omega⟩
  dsimp only at hpid hle
  subst hpid
  rw [fencesToHb_fwd, VecSet.mem_ofList, List.mem_map]
  generalize forthBound (tb.getEvt a) = bound
  by_cases hbound : bound = -1
  · rw [if_pos hbound]
    refine iff_of_false ?_ fun h => h.2.1 hbound
    rintro ⟨j, hj, -⟩
    exact absurd hj List.not_mem_nil
  · rw [if_neg hbound]
    simp only [List.mem_filter, List.mem_range'_1, decide_eq_true_eq, IID.mk.injEq, true_and,
      Nat.add_right_cancel_iff, exists_eq_right, Nat.add_sub_cancel]
    have hrange : (bound.toNat ≤ i ∧
        i < bound.toNat + ((tb.thread a.pid).fchCount - bound.toNat)) ↔ bound ≤ (i : Int) := by
      omega
    rw [hrange]
    constructor
    · rintro ⟨hle, hcommitted, hfence⟩
      exact ⟨hcommitted, hbound, hle, hfence⟩
    · rintro ⟨hcommitted, -, hle, hfence⟩
      exact ⟨hle, hcommitted, hfence⟩

/-- The position `i` is behind the fence with index `n`. -/
def PastFence (n : Int) (i : Nat) : Prop := n ≠ -1 ∧ n ≤ i

/-- The first one of two fences. -/
theorem pastFence_ite (m n : Int) (i : Nat) :
    PastFence (if m = -1 ∨ n ≠ -1 ∧ n < m then n else m) i ↔ PastFence m i ∨ PastFence n i := by
  unfold PastFence
  split_ifs <;> omega

/-- The loop starts behind the first fence that may order the event. -/
theorem pastFence_forthBound (evt : PAEvent) (i : Nat) :
    PastFence (forthBound evt) i ↔ PastFence evt.lwsyncIdxAfter i ∨ PastFence evt.syncIdxAfter i ∨
      evt.hasStore = true ∧ PastFence evt.eieioIdxAfter i := by
  unfold forthBound
  dsimp only
  by_cases hstore : evt.hasStore = true
  · simp only [hstore, true_and]
    rw [pastFence_ite, pastFence_ite, or_assoc]
  · rw [if_neg fun h => hstore h.1, or_congr_right (or_iff_left fun h => hstore h.1),
      pastFence_ite]

/-- -1 is passed by each position. -/
theorem le_iff_pastFence (n : Int) (i : Nat) : n ≤ i ↔ n = -1 ∨ PastFence n i := by
  unfold PastFence
  omega

end TB

namespace Session

open TB (PastFence)

variable {cfg : Config} {S : Session} {a b : IID} {t : FenceType}

theorem pastFence_iff (h : Run cfg S) (ha : a ∈ S.tb.fetched) (hb : 0 < b.idx)
    (ht : t ≠ .isync) :
    PastFence ((S.tb.getEvt a).fenceAfter t) (b.idx - 1) ↔ S.Between t a b := by
  constructor
  · intro hpast
    exact (fenceAfter_le h ha hb ht hpast.1).mp hpast.2
  · intro hbetween
    have hne := mt (fenceAfter_eq h ha ht).mp (not_not.mpr hbetween.behind)
    exact ⟨hne, (fenceAfter_le h ha hb ht hne).mpr hbetween⟩

/-- Looking back, the fences between the events decide. -/
theorem mem_bwd_iff (h : Run cfg S) (ha : 0 < a.idx) (hb : b ∈ S.tb.fetched)
    (hpid : a.pid = b.pid) (hcommitted : (S.tb.getEvt a).committed = true) :
    a ∈ (S.tb.fencesToHb b).bwd ↔ S.FenceOrdered a b := by
  have hsync : ((a.idx - 1 : Nat) : Int) < (S.tb.getEvt b).syncIdxBefore ↔ S.Between .sync a b :=
    lt_fenceBefore h hb hpid ha (t := .sync) (by decide)
  have hlwsync : ((a.idx - 1 : Nat) : Int) < (S.tb.getEvt b).lwsyncIdxBefore ↔
      S.Between .lwsync a b := lt_fenceBefore h hb hpid ha (t := .lwsync) (by decide)
  have heieio : ((a.idx - 1 : Nat) : Int) < (S.tb.getEvt b).eieioIdxBefore ↔
      S.Between .eieio a b := lt_fenceBefore h hb hpid ha (t := .eieio) (by decide)
  rw [TB.mem_fencesToHb_bwd hpid ha, hsync, hlwsync, heieio, and_iff_right hcommitted,
    or_comm (a := (S.tb.getEvt b).hasStore = true),
    and_comm (a := (S.tb.getEvt b).hasStore = true)]
  rfl

/-- No event is committed before what an lwsync or a sync orders before it. -/
theorem not_between_of_committed (h : Run cfg S) (ha : a ∈ S.tb.fetched) (hb : b ∈ S.tb.fetched)
    (hpid : a.pid = b.pid) (hcommitted : (S.tb.getEvt b).committed = true)
    (hnot : (S.tb.getEvt a).committed = false) :
    ¬S.Between .sync a b ∧ ¬S.Between .lwsync a b := by
  have hpos := (TB.mem_fetched.mp ha).2.1
  have hle := (TB.mem_fetched.mp hb).2
  have hpre : ¬a.idx - 1 < (S.tb.thread b.pid).committedPrefix := by
    intro hlt
    have hc := h.prefixInv.committed b.pid (a.idx - 1) hlt
    rw [← hpid] at hc
    rw [TB.getEvt, hc] at hnot
    cases hnot
  have hsync := h.prefixInv.sync b.pid (b.idx - 1) (by omega) hcommitted
  have hlwsync := h.prefixInv.lwsync b.pid (b.idx - 1) (by omega) hcommitted
  constructor
  · rw [← lt_fenceBefore h hb hpid hpos (t := .sync) (by decide)]
    exact fun hlt => hpre (by have := hlt.trans_le hsync; omega)
  · rw [← lt_fenceBefore h hb hpid hpos (t := .lwsync) (by decide)]
    exact fun hlt => hpre (by have := hlt.trans_le hlwsync; omega)

/-- Looking forth, an event that escapes is ordered all the same. -/
theorem mem_fwd_iff (h : Run cfg S) (ha : a ∈ S.tb.fetched) (hb : b ∈ S.tb.fetched)
    (hpid : a.pid = b.pid) (hcommitted : (S.tb.getEvt b).committed = true)
    (hnot : (S.tb.getEvt a).committed = false) :
    b ∈ (S.tb.fencesToHb a).fwd ↔ S.FenceOrdered a b ∨ S.Escapes a b := by
  have hpos : 0 < b.idx := (TB.mem_fetched.mp hb).2.1
  have hsync : PastFence (S.tb.getEvt a).syncIdxAfter (b.idx - 1) ↔ S.Between .sync a b :=
    pastFence_iff h ha hpos (t := .sync) (by decide)
  have hlwsync : PastFence (S.tb.getEvt a).lwsyncIdxAfter (b.idx - 1) ↔ S.Between .lwsync a b :=
    pastFence_iff h ha hpos (t := .lwsync) (by decide)
  have heieio : PastFence (S.tb.getEvt a).eieioIdxAfter (b.idx - 1) ↔ S.Between .eieio a b :=
    pastFence_iff h ha hpos (t := .eieio) (by decide)
  have hsync' : (S.tb.getEvt a).syncIdxAfter = -1 ↔ ¬S.Behind .sync a :=
    fenceAfter_eq h ha (t := .sync) (by decide)
  have hlwsync' : (S.tb.getEvt a).lwsyncIdxAfter = -1 ↔ ¬S.Behind .lwsync a :=
    fenceAfter_eq h ha (t := .lwsync) (by decide)
  obtain ⟨hnoSync, hnoLwsync⟩ := not_between_of_committed h ha hb hpid hcommitted hnot
  rw [TB.mem_fencesToHb_fwd hpid hb, and_iff_right hcommitted, ← and_assoc]
  change PastFence (TB.forthBound _) _ ∧ _ ↔ _
  rw [TB.pastFence_forthBound, TB.le_iff_pastFence (S.tb.getEvt a).syncIdxAfter,
    TB.le_iff_pastFence (S.tb.getEvt a).lwsyncIdxAfter,
    TB.le_iff_pastFence (S.tb.getEvt a).eieioIdxAfter, hsync, hlwsync, heieio, hsync', hlwsync']
  unfold FenceOrdered Escapes
  simp only [hnoSync, hnoLwsync, false_or, or_false, false_and]
  cases hstore : (S.tb.getEvt b).hasStore with
  | true =>
    simp only [true_or, and_true, Bool.true_eq_false, false_and, and_false, or_false]
    constructor
    · exact fun hloop => hloop.1.symm
    · exact fun hordered => ⟨hordered.symm, Or.inr (Or.inr ⟨Or.inr hordered.1, hordered.2⟩)⟩
  | false =>
    simp only [Bool.false_eq_true, false_or, or_false, and_false, true_and]
    rw [and_comm (a := (S.tb.getEvt a).hasStore = true), and_assoc]

theorem Escapes.not_ordered (h : S.Escapes a b) (hsync : ¬S.Between .sync a b)
    (hlwsync : ¬S.Between .lwsync a b) : ¬S.FenceOrdered a b := by
  rintro (hordered | ⟨hordered, -⟩ | ⟨-, -, hstore⟩)
  · exact hsync hordered
  · exact hlwsync hordered
  · rw [h.2.2.1] at hstore
    cases hstore

/-- The edges are right in every state of a run, unless `b` escapes and is committed first. -/
theorem fencesRight_iff (h : Run cfg S) (ha : a ∈ S.tb.fetched) (hb : b ∈ S.tb.fetched)
    (hpid : a.pid = b.pid) : S.FencesRight a b ↔
      ((S.tb.getEvt b).committed = true → (S.tb.getEvt a).committed = false → ¬S.Escapes a b) := by
  constructor
  · intro hright hcommitted hnot hescapes
    obtain ⟨hsync, hlwsync⟩ := not_between_of_committed h ha hb hpid hcommitted hnot
    have hmem := (mem_fwd_iff h ha hb hpid hcommitted hnot).mpr (Or.inr hescapes)
    exact hescapes.not_ordered hsync hlwsync ((hright.fwd hcommitted hnot).mp hmem)
  · intro hstays
    constructor
    · intro hcommitted _
      exact mem_bwd_iff h (TB.mem_fetched.mp ha).2.1 hb hpid hcommitted
    · intro hcommitted hnot
      rw [mem_fwd_iff h ha hb hpid hcommitted hnot]
      exact or_iff_left (hstays hcommitted hnot)

instance : Decidable (S.Between t a b) :=
  inferInstanceAs (Decidable (∃ f ∈ S.fences, _ ∧ _ ∧ _ ∧ _))

instance : Decidable (S.Behind t a) :=
  inferInstanceAs (Decidable (∃ f ∈ S.fences, _ ∧ _ ∧ _))

instance : Decidable (S.FenceOrdered a b) := inferInstanceAs (Decidable (_ ∨ _ ∨ _))

instance : Decidable (S.Escapes a b) := inferInstanceAs (Decidable (_ ∧ _ ∧ _ ∧ _))

end Session

/-! ## Computations of the builder -/

instance (tb : TB) (a : Action) : Decidable (tb.Allowed a) :=
  match a with
  | .fetch .. => inferInstanceAs (Decidable (∀ i ∈ _, _ ∧ _))
  | .registerLoadRequirement .. => inferInstanceAs (Decidable (_ ∧ _))
  | .fetchCtrl .. => inferInstanceAs (Decidable (∀ i ∈ _, _ ∧ _))
  | .fetchFence .. => inferInstanceAs (Decidable (_ < _))
  | .spawn .. | .abort | .registerAddr .. | .registerData .. | .schedule =>
    inferInstanceAs (Decidable True)

/-- The session behind the calls, if they are allowed and no assertion fails. -/
def Session.calls (cfg : Config) (S : Session) : List Action → Option Session
  | [] => some S
  | a :: l =>
    if S.tb.Allowed a then
      (S.tb.act cfg a).bind fun tb => Session.calls cfg { S with tb, fences := S.fencesAfter a } l
    else none

theorem Run.calls {cfg : Config} {S S' : Session} {l : List Action} (h : Run cfg S)
    (hl : S.calls cfg l = some S') : Run cfg S' := by
  induction l generalizing S with
  | nil =>
    cases hl
    exact h
  | cons a l ih =>
    unfold Session.calls at hl
    obtain ⟨hallowed, hl⟩ := Option.ite_none_right_eq_some.mp hl
    obtain ⟨tb, ha, hl⟩ := Option.bind_eq_some_iff.mp hl
    exact ih (h.act a hallowed ha) hl

theorem Run.of_calls {cfg : Config} {l : List Action}
    (h : (Session.calls cfg {} l).isSome = true) :
    Run cfg ((Session.calls cfg {} l).getD {}) := by
  obtain ⟨S, hS⟩ := Option.isSome_iff_exists.mp h
  rw [hS]
  exact Run.start.calls hS

/-- Two stores with an eieio between them; the second one is committed before the data of the
first one are known. -/
def secondStore : Session :=
  (Session.calls { model := .power } {}
    [.fetch 0 0 1 ∅ ∅, .registerAddr ⟨0, 1⟩ 0 ⟨0, 1⟩, .fetchFence 0 .eieio, .fetch 0 0 1 ∅ ∅,
      .registerAddr ⟨0, 2⟩ 0 ⟨1, 1⟩, .registerData ⟨0, 2⟩ 0 [1], .schedule]).getD {}

theorem fencesRight_secondStore :
    (secondStore.tb.getEvt ⟨0, 2⟩).committed = true ∧
      (secondStore.tb.getEvt ⟨0, 1⟩).committed = false ∧
      secondStore.FencesRight ⟨0, 1⟩ ⟨0, 2⟩ := by
  have hrun : Run { model := .power } secondStore := Run.of_calls (by decide +kernel)
  refine ⟨by decide +kernel, by decide +kernel, ?_⟩
  refine (Session.fencesRight_iff (a := ⟨0, 1⟩) (b := ⟨0, 2⟩) hrun ?_ ?_ rfl).mpr ?_
  · decide +kernel
  · decide +kernel
  · exact fun _ _ => by decide +kernel

/-- A store and a load with an eieio between them; the load is committed before the data of
the store are known. -/
def earlyLoad : Session :=
  (Session.calls { model := .power } {}
    [.fetch 0 0 1 ∅ ∅, .registerAddr ⟨0, 1⟩ 0 ⟨0, 1⟩, .fetchFence 0 .eieio, .fetch 0 1 0 ∅ ∅,
      .registerAddr ⟨0, 2⟩ 0 ⟨1, 1⟩, .schedule]).getD {}

/-- The store is entered before the load in hb, and stays there when it is committed. -/
theorem not_fencesRight_earlyLoad :
    Run { model := .power } earlyLoad ∧ ¬earlyLoad.FencesRight ⟨0, 1⟩ ⟨0, 2⟩ ∧
      (earlyLoad.calls { model := .power } [.registerData ⟨0, 1⟩ 0 [1], .schedule]).any
        (fun S => (S.tb.getEvt ⟨0, 1⟩).committed && (S.tb.getEvt ⟨0, 2⟩).committed &&
          (⟨0, 2⟩ : IID) ∈ (S.tb.getEvt ⟨0, 1⟩).rel.hb.fwd && ¬S.FenceOrdered ⟨0, 1⟩ ⟨0, 2⟩) =
        true := by
  refine ⟨Run.of_calls (by decide +kernel), fun hright => ?_, by decide +kernel⟩
  have hcommitted : (earlyLoad.tb.getEvt ⟨0, 2⟩).committed = true := by decide +kernel
  have hnot : (earlyLoad.tb.getEvt ⟨0, 1⟩).committed = false := by decide +kernel
  have hmem : (⟨0, 2⟩ : IID) ∈ (earlyLoad.tb.fencesToHb ⟨0, 1⟩).fwd := by decide +kernel
  have hordered : ¬earlyLoad.FenceOrdered ⟨0, 1⟩ ⟨0, 2⟩ := by decide +kernel
  exact hordered ((hright.fwd hcommitted hnot).mp hmem)

end ViEqui.Power
