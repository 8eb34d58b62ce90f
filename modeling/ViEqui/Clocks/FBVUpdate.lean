import ViEqui.Clocks.FBVClock

/-!
# What an update of a lazy clock leaves behind

`Inv idx E` relates the time stamps and the stored bits of a clock system to the edges `E`
that were added: a stored bit is a reachable clock, and an edge that a clock has missed
starts at a clock that changed after its last update.  A clock that is up to date has
exactly the bits that it reaches.  An update keeps the invariant and brings its clock up to
date, whenever it ends.
-/

namespace ViEqui.Clocks.ClockSystem

open Relation

/-- The time stamps and the stored bits fit the indices `idx` of the clocks and the edges `E`. -/
structure Inv (idx : Nat → Nat) (E : Nat → Nat → Prop) (CS : ClockSystem) : Prop where
  changeTs : CS.changeTs.length = CS.clocks.length
  updateTs : CS.updateTs.length = CS.clocks.length
  id : ∀ p, p < CS.clocks.length → CS.idxToId[idx p]? = some p
  length_clock : ∀ x, (CS.clock x).length ≤ CS.idxToId.length
  edge_lt : ∀ p q, E p q → p < CS.clocks.length ∧ q < CS.clocks.length
  reach : ∀ x i, CS.bit x i = true →
    ∃ p, p < CS.clocks.length ∧ idx p = i ∧ ReflTransGen E x p
  self : ∀ x, x < CS.clocks.length → CS.bit x (idx x) = true
  edge : ∀ x q, E x q → CS.bit x (idx q) = true
  stale : ∀ x p q, CS.bit x (idx p) = true → E p q →
    CS.bit x (idx q) = true ∨ CS.updated x < CS.changed p
  updated_le : ∀ x, CS.updated x ≤ CS.time
  changed_le : ∀ x, CS.changed x ≤ CS.time

/-- The edges of a clock in the clock `x` are in `x`. -/
def Closed (idx : Nat → Nat) (E : Nat → Nat → Prop) (CS : ClockSystem) (x p : Nat) : Prop :=
  ∀ q, E p q → CS.bit x (idx q) = true

/-- `CS'` is a later state of an update in `CS`. -/
structure Grown (idx : Nat → Nat) (E : Nat → Nat → Prop) (CS CS' : ClockSystem) : Prop where
  time : CS'.time = CS.time
  changeTs : CS'.changeTs = CS.changeTs
  idxToId : CS'.idxToId = CS.idxToId
  length : CS'.clocks.length = CS.clocks.length
  bit : ∀ x i, CS.bit x i = true → CS'.bit x i = true
  closed : ∀ x p, CS'.bit x (idx p) = true → CS.bit x (idx p) = true ∨ Closed idx E CS' x p
  updated : ∀ x, CS'.updated x = CS.updated x ∨ CS'.updated x = CS.time

variable {idx : Nat → Nat} {E : Nat → Nat → Prop} {CS CS' CS'' : ClockSystem} {x y p q i : Nat}

namespace Grown

theorem refl (CS : ClockSystem) : Grown idx E CS CS :=
  ⟨rfl, rfl, rfl, rfl, fun _ _ h => h, fun _ _ h => .inl h, fun _ => .inl rfl⟩

theorem trans (h : Grown idx E CS CS') (h' : Grown idx E CS' CS'') : Grown idx E CS CS'' where
  time := h'.time.trans h.time
  changeTs := h'.changeTs.trans h.changeTs
  idxToId := h'.idxToId.trans h.idxToId
  length := h'.length.trans h.length
  bit x i hi := h'.bit x i (h.bit x i hi)
  closed x p hp := by
    rcases h'.closed x p hp with hp | hc
    · rcases h.closed x p hp with hp | hc
      · exact .inl hp
      · exact .inr fun q hq => h'.bit x _ (hc q hq)
    · exact .inr hc
  updated x := by
    have hu := h.updated x
    have hu' := h'.updated x
    have ht := h.time
    omega

theorem changed (h : Grown idx E CS CS') (p : Nat) : CS'.changed p = CS.changed p := by
  rw [ClockSystem.changed, h.changeTs]
  rfl

theorem closed_of (h : Grown idx E CS CS')
    (hc : CS.bit x (idx p) = true → Closed idx E CS x p) (hp : CS'.bit x (idx p) = true) :
    Closed idx E CS' x p := by
  rcases h.closed x p hp with hp | hc'
  · exact fun q hq => h.bit x _ (hc hp q hq)
  · exact hc'

end Grown

namespace Inv

theorem idx_inj (h : Inv idx E CS) (hp : p < CS.clocks.length) (hq : q < CS.clocks.length)
    (heq : idx p = idx q) : p = q := by
  have hs : some p = some q := by
    rw [← h.id p hp, heq, h.id q hq]
  exact Option.some.inj hs

theorem reach_idx (h : Inv idx E CS) (hp : p < CS.clocks.length)
    (hbit : CS.bit x (idx p) = true) : ReflTransGen E x p := by
  obtain ⟨q, hq, heq, hreach⟩ := h.reach x _ hbit
  rwa [h.idx_inj hp hq heq.symm]

theorem reach_lt (h : Inv idx E CS) (hx : x < CS.clocks.length) (hr : ReflTransGen E x p) :
    p < CS.clocks.length := by
  cases hr with
  | refl => exact hx
  | tail _ he => exact (h.edge_lt _ _ he).2

theorem of_bit (h : Inv idx E CS) (hbit : CS.bit x i = true) (hid : CS.idxToId[i]? = some p) :
    p < CS.clocks.length ∧ idx p = i ∧ ReflTransGen E x p := by
  obtain ⟨q, hq, heq, hr⟩ := h.reach x i hbit
  rw [← heq, h.id q hq] at hid
  rw [← Option.some.inj hid]
  exact ⟨hq, heq, hr⟩

theorem bit_of_reach (h : ∀ p, CS.bit x (idx p) = true → Closed idx E CS x p)
    (hx : CS.bit x (idx x) = true) (hr : ReflTransGen E x p) : CS.bit x (idx p) = true := by
  induction hr with
  | refl => exact hx
  | tail _ he ih => exact h _ ih _ he

/-- A clock that is up to date has the edges of its clocks. -/
theorem closed_of_updated (h : Inv idx E CS) (hu : CS.updated x = CS.time)
    (hp : CS.bit x (idx p) = true) : Closed idx E CS x p := by
  intro q hq
  rcases h.stale x p q hp hq with hbit | hlt
  · exact hbit
  · have hle := h.changed_le p
    omega

/-- A clock that is up to date has the clocks that it reaches. -/
theorem bit_iff_reach (h : Inv idx E CS) (hx : x < CS.clocks.length)
    (hu : CS.updated x = CS.time) (hp : p < CS.clocks.length) :
    CS.bit x (idx p) = true ↔ ReflTransGen E x p :=
  ⟨h.reach_idx hp, bit_of_reach (fun _ => h.closed_of_updated hu) (h.self x hx)⟩

/-! ## The steps of the loop -/

/-- A clock that is up to date is added to a clock that has it. -/
theorem addTo (h : Inv idx E CS) (hx : x < CS.clocks.length) (hp : p < CS.clocks.length)
    (hu : CS.updated p = CS.time) (hbit : CS.bit x (idx p) = true) :
    Inv idx E (CS.addTo x p) where
  changeTs := by
    show CS.changeTs.length = (CS.clocks.set _ _).length
    rw [List.length_set, h.changeTs]
  updateTs := by
    show CS.updateTs.length = (CS.clocks.set _ _).length
    rw [List.length_set, h.updateTs]
  id q hq := by
    rw [ClockSystem.addTo, List.length_set] at hq
    exact h.id q hq
  length_clock y := by
    rw [clock_addTo hx]
    show _ ≤ CS.idxToId.length
    have hlx := h.length_clock x
    have hlp := h.length_clock p
    split_ifs
    · rw [length_addClock]
      omega
    · exact h.length_clock y
  edge_lt q r hqr := by
    rw [ClockSystem.addTo, List.length_set]
    exact h.edge_lt q r hqr
  reach y i hi := by
    rw [ClockSystem.addTo, List.length_set]
    rw [bit_addTo hx] at hi
    split_ifs at hi with hy
    · subst hy
      rcases Bool.or_eq_true_iff.mp hi with hi | hi
      · exact h.reach y i hi
      · obtain ⟨q, hq, heq, hr⟩ := h.reach p i hi
        exact ⟨q, hq, heq, (h.reach_idx hp hbit).trans hr⟩
    · exact h.reach y i hi
  self y hy := by
    rw [ClockSystem.addTo, List.length_set] at hy
    rw [bit_addTo hx]
    split_ifs with hyx
    · rw [← hyx, h.self y hy, Bool.true_or]
    · exact h.self y hy
  edge y q hq := by
    rw [bit_addTo hx]
    split_ifs with hyx
    · rw [← hyx, h.edge y q hq, Bool.true_or]
    · exact h.edge y q hq
  stale y r q hr hq := by
    rw [bit_addTo hx] at hr ⊢
    rw [updated_addTo, changed_addTo]
    split_ifs at hr ⊢ with hyx
    · subst hyx
      rcases Bool.or_eq_true_iff.mp hr with hr | hr
      · rcases h.stale y r q hr hq with hb | hlt
        · exact .inl (by rw [hb, Bool.true_or])
        · exact .inr hlt
      · exact .inl (by rw [h.closed_of_updated hu hr q hq, Bool.or_true])
    · exact h.stale y r q hr hq
  updated_le := h.updated_le
  changed_le := h.changed_le

theorem grown_addTo (h : Inv idx E CS) (hx : x < CS.clocks.length)
    (hu : CS.updated p = CS.time) : Grown idx E CS (CS.addTo x p) where
  time := rfl
  changeTs := rfl
  idxToId := rfl
  length := List.length_set
  bit y i hi := by
    rw [bit_addTo hx]
    split_ifs with hyx
    · rw [← hyx, hi, Bool.true_or]
    · exact hi
  closed y r hr := by
    rw [bit_addTo hx] at hr
    split_ifs at hr with hyx
    · subst hyx
      rcases Bool.or_eq_true_iff.mp hr with hr | hr
      · exact .inl hr
      · refine .inr fun q hq => ?_
        rw [bit_addTo hx, if_pos rfl, h.closed_of_updated hu hr q hq, Bool.or_true]
    · exact .inl hr
  updated _ := .inl rfl

/-- A clock that has the edges of its clocks is marked as up to date. -/
theorem setUpdated (h : Inv idx E CS) (hx : x < CS.clocks.length)
    (hc : ∀ p, CS.bit x (idx p) = true → Closed idx E CS x p) :
    Inv idx E (CS.setUpdated x CS.time) where
  changeTs := h.changeTs
  updateTs := by
    show (CS.updateTs.set _ _).length = _
    rw [List.length_set, h.updateTs]
    rfl
  id := h.id
  length_clock := h.length_clock
  edge_lt := h.edge_lt
  reach := h.reach
  self := h.self
  edge := h.edge
  stale y p q hp hq := by
    rw [updated_setUpdated (by rwa [h.updateTs])]
    split_ifs with hyx
    · subst hyx
      exact .inl (hc p hp q hq)
    · exact h.stale y p q hp hq
  updated_le y := by
    rw [updated_setUpdated (by rwa [h.updateTs])]
    split_ifs
    · exact Nat.le_refl _
    · exact h.updated_le y
  changed_le := h.changed_le

theorem grown_setUpdated (h : Inv idx E CS) (hx : x < CS.clocks.length) :
    Grown idx E CS (CS.setUpdated x CS.time) where
  time := rfl
  changeTs := rfl
  idxToId := rfl
  length := rfl
  bit _ _ hi := hi
  closed _ _ hp := .inl hp
  updated y := by
    rw [updated_setUpdated (by rwa [h.updateTs])]
    split_ifs
    · exact .inr rfl
    · exact .inl rfl

end Inv

/-! ## The loop and the recursion -/

/-- What an update of `x` in `CS` leaves behind. -/
structure Updates (idx : Nat → Nat) (E : Nat → Nat → Prop) (x : Nat) (CS CS' : ClockSystem) :
    Prop where
  inv : Inv idx E CS'
  grown : Grown idx E CS CS'
  updated : CS'.updated x = CS.time

/-- The states of the loop for `x` in front of the round `i`. -/
structure Loop (idx : Nat → Nat) (E : Nat → Nat → Prop) (x i : Nat) (CS CS' : ClockSystem) :
    Prop where
  inv : Inv idx E CS'
  grown : Grown idx E CS CS'
  closed : ∀ p, idx p < i → CS'.bit x (idx p) = true → Closed idx E CS' x p

/-- `rec` leaves behind what an update does, when it ends. -/
def Correct (idx : Nat → Nat) (E : Nat → Nat → Prop)
    (rec : ClockSystem → Nat → Option ClockSystem) : Prop :=
  ∀ CS x CS', Inv idx E CS → rec CS x = some CS' → Updates idx E x CS CS'

variable {rec : ClockSystem → Nat → Option ClockSystem}

/-- What each round keeps holds behind the loop, for an index behind the end of the clock. -/
theorem updateLoop_inv (I : Nat → ClockSystem → Prop) {upd : Nat}
    (hround : ∀ i CS CS', I i CS → updateRound rec x upd i CS = some CS' → I (i + 1) CS')
    {n : Nat} (h : I i CS) (hr : updateLoop rec x upd n i CS = some CS') :
    ∃ j, (CS'.clock x).length ≤ j ∧ I j CS' := by
  induction n generalizing i CS with
  | zero =>
    unfold updateLoop at hr
    split_ifs at hr with hi
    cases hr
    exact ⟨i, by omega, h⟩
  | succ n ih =>
    unfold updateLoop at hr
    split_ifs at hr with hi
    · obtain ⟨CS₁, hrun, hr⟩ := Option.bind_eq_some_iff.mp hr
      exact ih (hround i CS CS₁ h hrun) hr
    · cases hr
      exact ⟨i, by omega, h⟩

namespace Loop

/-- A round that follows the clock `p`. -/
theorem follow (hx : x < CS.clocks.length) (h : Loop idx E x i CS CS') (hp : idx p = i)
    (hplt : p < CS.clocks.length) (hbit : CS'.bit x i = true)
    (hu : Updates idx E p CS' CS'') : Loop idx E x (i + 1) CS (CS''.addTo x p) := by
  have hx' : x < CS''.clocks.length := by
    rwa [hu.grown.length, h.grown.length]
  have hp' : p < CS''.clocks.length := by
    rwa [hu.grown.length, h.grown.length]
  have hup : CS''.updated p = CS''.time := by
    rw [hu.updated, hu.grown.time]
  have hbit' : CS''.bit x (idx p) = true := by
    rw [hp]
    exact hu.grown.bit x i hbit
  have hgrown := hu.grown.trans (hu.inv.grown_addTo hx' hup)
  refine ⟨hu.inv.addTo hx' hp' hup hbit', h.grown.trans hgrown, fun r hr hrbit => ?_⟩
  rcases Nat.lt_succ_iff_lt_or_eq.mp hr with hlt | heq
  · exact hgrown.closed_of (h.closed r hlt) hrbit
  · intro q hq
    have hrp : r = p := by
      apply hu.inv.idx_inj (hu.inv.edge_lt r q hq).1 hp'
      rw [heq, hp]
    rw [bit_addTo hx', if_pos rfl, hu.inv.edge p q (hrp ▸ hq), Bool.or_true]

/-- A round that follows no clock. -/
theorem skip (h : Loop idx E x i CS CS')
    (hid : ∀ p, CS'.idxToId[i]? = some p →
      ¬(p ≠ x ∧ CS'.bit x i = true ∧ CS.updated x < CS'.changed p)) :
    Loop idx E x (i + 1) CS CS' := by
  refine ⟨h.inv, h.grown, fun p hp hbit => ?_⟩
  rcases Nat.lt_succ_iff_lt_or_eq.mp hp with hlt | heq
  · exact h.closed p hlt hbit
  · intro q hq
    have hno := hid p (by rw [← heq, h.inv.id p (h.inv.edge_lt p q hq).1])
    by_cases hpx : p = x
    · exact h.inv.edge x q (hpx ▸ hq)
    · rcases h.inv.stale x p q hbit hq with hbit' | hlt
      · exact hbit'
      · -- the stamp of `x` is the one from the start of the loop, or that of now
        have hchanged := h.inv.changed_le p
        have hupdated := h.grown.updated x
        have htime := h.grown.time
        exact absurd ⟨hpx, heq ▸ hbit, by omega⟩ hno

/-- A round calls the clock of its index, or it leaves the system as it is. -/
theorem round_cases (h : Loop idx E x i CS CS')
    (hr : updateRound rec x (CS.updated x) i CS' = some CS'') :
    (∃ p CS₁, idx p = i ∧ p < CS.clocks.length ∧ CS'.bit x i = true ∧ rec CS' p = some CS₁ ∧
      CS'' = CS₁.addTo x p) ∨
    (CS'' = CS' ∧ ∀ p, CS'.idxToId[i]? = some p →
      ¬(p ≠ x ∧ CS'.bit x i = true ∧ CS.updated x < CS'.changed p)) := by
  obtain ⟨p, hid, hr⟩ := Option.bind_eq_some_iff.mp hr
  split_ifs at hr with hcond
  · obtain ⟨CS₁, hcall, rfl⟩ := Option.map_eq_some_iff.mp hr
    obtain ⟨hp, hidx, -⟩ := h.inv.of_bit hcond.2.1 hid
    exact .inl ⟨p, CS₁, hidx, by rwa [← h.grown.length], hcond.2.1, hcall, rfl⟩
  · cases hr
    refine .inr ⟨rfl, fun q hq => ?_⟩
    rw [hid] at hq
    cases hq
    exact hcond

theorem round (hrec : Correct idx E rec) (hx : x < CS.clocks.length) (h : Loop idx E x i CS CS')
    (hr : updateRound rec x (CS.updated x) i CS' = some CS'') :
    Loop idx E x (i + 1) CS CS'' := by
  rcases h.round_cases hr with ⟨p, CS₁, hidx, hp, hbit, hcall, rfl⟩ | ⟨rfl, hid⟩
  · exact h.follow hx hidx hp hbit (hrec CS' p CS₁ h.inv hcall)
  · exact h.skip hid

/-- After the loop the clock has the edges of its clocks. -/
theorem closed_of_length (h : Loop idx E x i CS CS') (hi : (CS'.clock x).length ≤ i)
    (hp : CS'.bit x (idx p) = true) : Closed idx E CS' x p := by
  have hlt := lt_length_of_bit hp
  exact h.closed p (by omega) hp

theorem start (h : Inv idx E CS) : Loop idx E x 0 CS CS :=
  ⟨h, .refl CS, fun _ hp => absurd hp (Nat.not_lt_zero _)⟩

/-- The loop has ended, and the clock is marked as up to date. -/
theorem updates (hx : x < CS.clocks.length) (h : Loop idx E x i CS CS')
    (hi : (CS'.clock x).length ≤ i) : Updates idx E x CS (CS'.setUpdated x CS.time) := by
  have hx' : x < CS'.clocks.length := by rwa [h.grown.length]
  rw [← h.grown.time]
  refine ⟨h.inv.setUpdated hx' fun p hp => h.closed_of_length hi hp,
    h.grown.trans (h.inv.grown_setUpdated hx'), ?_⟩
  rw [updated_setUpdated (by rwa [h.inv.updateTs]), if_pos rfl, h.grown.time]

end Loop

/-- An update that ends keeps the invariant and brings its clock up to date. -/
theorem update_correct (fuel : Nat) : Correct idx E (update fuel) := by
  induction fuel with
  | zero =>
    intro CS x CS' _ h
    cases h
  | succ fuel ih =>
    intro CS x CS' hinv h
    unfold update at h
    split_ifs at h with hx hup
    · cases h
      exact ⟨hinv, .refl CS, hup⟩
    · obtain ⟨CS₁, hloop, rfl⟩ := Option.map_eq_some_iff.mp h
      obtain ⟨j, hj, hl⟩ := updateLoop_inv (fun i CS' => Loop idx E x i CS CS')
        (fun i _ _ hl hr => hl.round ih hx.1 hr) (Loop.start hinv) hloop
      rw [hl.grown.time]
      exact hl.updates hx.1 hj

end ViEqui.Clocks.ClockSystem
