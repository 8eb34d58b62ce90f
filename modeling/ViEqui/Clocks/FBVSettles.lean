import ViEqui.Clocks.FBVEnds

/-!
# Updates of a lazy clock with well-founded calls end

The update of a clock is followed from the leaves of the calls of one fixed state `CS₀` on.
In each state on the way a clock is as in `CS₀` or up to date, so the rounds call what they
would have called there.
-/

namespace ViEqui.Clocks.ClockSystem

open Relation

variable {idx : Nat → Nat} {E : Nat → Nat → Prop} {CS CS' CS'' : ClockSystem} {x y p q i : Nat}

section Mono

variable {rec rec' : ClockSystem → Nat → Option ClockSystem}
  (hrec : ∀ CS x CS', rec CS x = some CS' → rec' CS x = some CS')
include hrec

theorem updateRound_mono {upd : Nat} (h : updateRound rec x upd i CS = some CS') :
    updateRound rec' x upd i CS = some CS' := by
  obtain ⟨p, hid, h⟩ := Option.bind_eq_some_iff.mp h
  refine Option.bind_eq_some_iff.mpr ⟨p, hid, ?_⟩
  split_ifs at h ⊢ with hcond
  · obtain ⟨CS₁, hcall, rfl⟩ := Option.map_eq_some_iff.mp h
    exact Option.map_eq_some_iff.mpr ⟨CS₁, hrec CS p CS₁ hcall, rfl⟩
  · exact h

theorem updateLoop_mono {upd n : Nat} (h : updateLoop rec x upd n i CS = some CS') :
    updateLoop rec' x upd n i CS = some CS' := by
  induction n generalizing i CS with
  | zero => exact h
  | succ n ih =>
    unfold updateLoop at h ⊢
    split_ifs at h ⊢ with hi
    · obtain ⟨CS₁, hround, h⟩ := Option.bind_eq_some_iff.mp h
      exact Option.bind_eq_some_iff.mpr ⟨CS₁, updateRound_mono hrec hround, ih h⟩
    · exact h

end Mono

/-- More fuel changes nothing. -/
theorem update_mono {fuel fuel' : Nat} (hle : fuel ≤ fuel')
    (h : update fuel CS x = some CS') : update fuel' CS x = some CS' := by
  induction fuel generalizing fuel' CS x CS' with
  | zero => cases h
  | succ fuel ih =>
    obtain ⟨m, rfl⟩ : ∃ m, fuel' = m + 1 := ⟨fuel' - 1, by omega⟩
    unfold update at h ⊢
    split_ifs at h ⊢ with hx hu
    · exact h
    · obtain ⟨CS₁, hloop, h⟩ := Option.map_eq_some_iff.mp h
      refine Option.map_eq_some_iff.mpr ⟨CS₁, ?_, h⟩
      exact updateLoop_mono (fun _ _ _ hcall => ih (by omega) hcall) hloop

/-- The clock `y` is as before. -/
def Unchanged (CS CS' : ClockSystem) (y : Nat) : Prop :=
  CS'.updated y = CS.updated y ∧ CS'.clock y = CS.clock y

/-- Each clock that the calls from `x` in `CS₀` reach is as in `CS₀`, or up to date. -/
def Fresh (idx : Nat → Nat) (E : Nat → Nat → Prop) (CS₀ : ClockSystem) (x : Nat)
    (CS : ClockSystem) : Prop :=
  ∀ y, ReflTransGen (Calls idx E CS₀) x y → Unchanged CS₀ CS y ∨ CS.updated y = CS₀.time

/-- From `CS` to `CS'`, only clocks that the calls from `x` in `CS₀` reach have changed, and
they are up to date. -/
def Touched (idx : Nat → Nat) (E : Nat → Nat → Prop) (CS₀ : ClockSystem) (x : Nat)
    (CS CS' : ClockSystem) : Prop :=
  ∀ y, Unchanged CS CS' y ∨
    (CS'.updated y = CS₀.time ∧ ReflTransGen (Calls idx E CS₀) x y)

/-- The update of `x` ends in the states that an update in `CS₀` goes through. -/
def Settles (idx : Nat → Nat) (E : Nat → Nat → Prop) (CS₀ : ClockSystem) (x : Nat) : Prop :=
  ∀ CS, Inv idx E CS → Grown idx E CS₀ CS → Fresh idx E CS₀ x CS →
    ∃ fuel CS', update fuel CS x = some CS' ∧ Touched idx E CS₀ x CS CS'

/-- What has changed from `CS` on in front of the round `i` for `x`. -/
structure Quiet (idx : Nat → Nat) (E : Nat → Nat → Prop) (CS₀ : ClockSystem) (x i : Nat)
    (CS CS' : ClockSystem) : Prop where
  updated : CS'.updated x = CS.updated x
  others : ∀ y, y ≠ x → Unchanged CS CS' y ∨
    (CS'.updated y = CS₀.time ∧ TransGen (Calls idx E CS₀) x y)
  bit : ∀ p, p < CS.clocks.length → CS'.bit x (idx p) = true → CS₀.bit x (idx p) = true ∨
    ∃ q, Calls idx E CS₀ x q ∧ idx q < i ∧ ReflTransGen E q p

variable {CS₀ : ClockSystem}

namespace Unchanged

theorem refl : Unchanged CS CS y := ⟨rfl, rfl⟩

theorem trans (h : Unchanged CS CS' y) (h' : Unchanged CS' CS'' y) : Unchanged CS CS'' y :=
  ⟨h'.1.trans h.1, h'.2.trans h.2⟩

theorem bit (h : Unchanged CS CS' y) : CS'.bit y i = CS.bit y i := by
  rw [ClockSystem.bit, h.2]
  rfl

theorem addTo (hx : x < CS'.clocks.length) (hy : y ≠ x) (h : Unchanged CS CS' y) :
    Unchanged CS (CS'.addTo x p) y := by
  refine ⟨h.1, ?_⟩
  rw [clock_addTo hx, if_neg hy]
  exact h.2

end Unchanged

namespace Quiet

/-- The round calls as it would have in `CS₀`. -/
theorem calls (hx : Unchanged CS₀ CS x) (h₀ : Grown idx E CS₀ CS) (hl : Loop idx E x i CS CS')
    (h : Quiet idx E CS₀ x i CS CS') (hp : p < CS.clocks.length) (hidx : idx p = i)
    (hne : p ≠ x) (hbit : CS'.bit x i = true) (hlt : CS.updated x < CS'.changed p) :
    Calls idx E CS₀ x p := by
  have hmissed : CS₀.updated x < CS₀.changed p := by
    rwa [← hx.1, ← h₀.changed, ← hl.grown.changed]
  have hp₀ : p < CS₀.clocks.length := by
    rwa [← h₀.length]
  rcases h.bit p hp (by rwa [hidx]) with hbit | ⟨q, hq, hqi, hreach⟩
  · exact .stored hne hmissed hp₀ hbit
  · exact .found hne hmissed hp₀ hq (by rwa [hidx]) hreach

theorem fresh (hends : Ends idx E CS₀ x) (hf : Fresh idx E CS₀ x CS)
    (h : Quiet idx E CS₀ x i CS CS') (hc : Calls idx E CS₀ x p) : Fresh idx E CS₀ p CS' := by
  intro y hy
  have hyx : y ≠ x := by
    intro heq
    exact hends.not_cycle (TransGen.head' hc (heq ▸ hy))
  rcases h.others y hyx with hsame | ⟨hup, -⟩
  · rcases hf y (ReflTransGen.head hc hy) with h₀ | hup
    · exact .inl (h₀.trans hsame)
    · exact .inr (hsame.1.trans hup)
  · exact .inr hup

/-- A round whose call has ended. -/
theorem follow (hends : Ends idx E CS₀ x) (hx : x < CS.clocks.length)
    (hl : Loop idx E x i CS CS') (h : Quiet idx E CS₀ x i CS CS') (hc : Calls idx E CS₀ x p)
    (hidx : idx p = i) (hu : Updates idx E p CS' CS'')
    (ht : Touched idx E CS₀ p CS' CS'') :
    Quiet idx E CS₀ x (i + 1) CS (CS''.addTo x p) := by
  have hx' : x < CS''.clocks.length := by
    rwa [hu.grown.length, hl.grown.length]
  have hsame : Unchanged CS' CS'' x := by
    rcases ht x with hsame | ⟨-, hpx⟩
    · exact hsame
    · exact absurd (TransGen.head' hc hpx) hends.not_cycle
  refine ⟨hsame.1.trans h.updated, fun y hy => ?_, fun r hr hbit => ?_⟩
  · rcases ht y with hsame' | ⟨hup, hpy⟩
    · rcases h.others y hy with hcs | ⟨hup, hxy⟩
      · exact .inl ((hcs.trans hsame').addTo hx' hy)
      · exact .inr ⟨hsame'.1.trans hup, hxy⟩
    · exact .inr ⟨hup, TransGen.head' hc hpy⟩
  · rw [bit_addTo hx', if_pos rfl, hsame.bit] at hbit
    rcases Bool.or_eq_true_iff.mp hbit with hbit | hbit
    · rcases h.bit r hr hbit with hbit | ⟨q, hq, hqi, hreach⟩
      · exact .inl hbit
      · exact .inr ⟨q, hq, by omega, hreach⟩
    · have hr' : r < CS''.clocks.length := by
        rwa [hu.grown.length, hl.grown.length]
      exact .inr ⟨p, hc, by omega, hu.inv.reach_idx hr' hbit⟩

/-- The round leaves the system as it is. -/
theorem skip (h : Quiet idx E CS₀ x i CS CS') : Quiet idx E CS₀ x (i + 1) CS CS' := by
  refine ⟨h.updated, h.others, fun r hr hbit => ?_⟩
  rcases h.bit r hr hbit with hbit | ⟨q, hq, hqi, hreach⟩
  · exact .inl hbit
  · exact .inr ⟨q, hq, by omega, hreach⟩

section Loops

variable (hends : Ends idx E CS₀ x)
  (hset : ∀ p, Calls idx E CS₀ x p → Settles idx E CS₀ p) (hf : Fresh idx E CS₀ x CS)
  (hun : Unchanged CS₀ CS x) (h₀ : Grown idx E CS₀ CS) (hx : x < CS.clocks.length)
include hends hset hf hun h₀ hx

theorem round (hl : Loop idx E x i CS CS') (h : Quiet idx E CS₀ x i CS CS')
    (hi : i < (CS'.clock x).length) :
    ∃ fuel CS'', updateRound (update fuel) x (CS.updated x) i CS' = some CS'' ∧
      Quiet idx E CS₀ x (i + 1) CS CS'' := by
  have hlen := hl.inv.length_clock x
  obtain ⟨p, hid⟩ : ∃ p, CS'.idxToId[i]? = some p :=
    ⟨_, List.getElem?_eq_getElem (by omega)⟩
  unfold updateRound
  rw [hid]
  by_cases hcond : p ≠ x ∧ CS'.bit x i = true ∧ CS.updated x < CS'.changed p
  · obtain ⟨hp, hidx, -⟩ := hl.inv.of_bit hcond.2.1 hid
    rw [hl.grown.length] at hp
    have hc := h.calls hun h₀ hl hp hidx hcond.1 hcond.2.1 hcond.2.2
    obtain ⟨fuel, CS₁, hcall, ht⟩ :=
      hset p hc CS' hl.inv (h₀.trans hl.grown) (h.fresh hends hf hc)
    refine ⟨fuel, CS₁.addTo x p, ?_, ?_⟩
    · rw [Option.bind_some, if_pos hcond, hcall]
      rfl
    · exact h.follow hends hx hl hc hidx (update_correct fuel CS' p CS₁ hl.inv hcall) ht
  · refine ⟨0, CS', ?_, h.skip⟩
    rw [Option.bind_some, if_neg hcond]

theorem run (n : Nat) (hl : Loop idx E x i CS CS') (h : Quiet idx E CS₀ x i CS CS')
    (hn : CS.idxToId.length ≤ n + i) :
    ∃ fuel CS'' j, updateLoop (update fuel) x (CS.updated x) n i CS' = some CS'' ∧
      Quiet idx E CS₀ x j CS CS'' := by
  have hlen := hl.inv.length_clock x
  rw [hl.grown.idxToId] at hlen
  induction n generalizing i CS' with
  | zero =>
    refine ⟨0, CS', i, ?_, h⟩
    unfold updateLoop
    rw [if_neg (by omega)]
  | succ n ih =>
    by_cases hi : i < (CS'.clock x).length
    · obtain ⟨fuel, CS₁, hround, hq⟩ := h.round hends hset hf hun h₀ hx hl hi
      have hl₁ := hl.round (update_correct fuel) hx hround
      have hlen₁ := hl₁.inv.length_clock x
      rw [hl₁.grown.idxToId] at hlen₁
      obtain ⟨fuel', CS₂, j, hrun, hq'⟩ := ih hl₁ hq (by omega) hlen₁
      refine ⟨max fuel fuel', CS₂, j, ?_, hq'⟩
      unfold updateLoop
      rw [if_pos hi]
      refine Option.bind_eq_some_iff.mpr ⟨CS₁, ?_, ?_⟩
      · exact updateRound_mono (fun _ _ _ => update_mono (Nat.le_max_left ..)) hround
      · exact updateLoop_mono (fun _ _ _ => update_mono (Nat.le_max_right ..)) hrun
    · refine ⟨0, CS', i, ?_, h⟩
      unfold updateLoop
      rw [if_neg hi]

end Loops

end Quiet

/-- An update whose calls are well-founded ends. -/
theorem Ends.settles (hends : Ends idx E CS₀ x) (hx : x < CS₀.clocks.length) :
    Settles idx E CS₀ x := by
  induction hends with
  | intro x hacc ih =>
    intro CS hinv h₀ hf
    have hx' : x < CS.clocks.length := by
      rwa [h₀.length]
    have hguard : x < CS.clocks.length ∧ (CS.clock x).length ≤ CS.idxToId.length :=
      ⟨hx', hinv.length_clock x⟩
    by_cases hu : CS.updated x = CS.time
    · refine ⟨1, CS, ?_, fun y => .inl .refl⟩
      unfold update
      rw [if_pos hguard, if_pos hu]
    · have hun : Unchanged CS₀ CS x := by
        rcases hf x .refl with hun | hup
        · exact hun
        · exact absurd (hup.trans h₀.time.symm) hu
      have hq : Quiet idx E CS₀ x 0 CS CS := by
        refine ⟨rfl, fun y _ => .inl .refl, fun p _ hbit => .inl ?_⟩
        rwa [← hun.bit]
      obtain ⟨fuel, CS₁, j, hrun, hq⟩ := hq.run (Acc.intro x hacc) (fun p hc => ih p hc hc.lt)
        hf hun h₀ hx' CS.idxToId.length (Loop.start hinv) (Nat.le_refl _)
      have hcall : update (fuel + 1) CS x = some (CS₁.setUpdated x CS.time) := by
        obtain ⟨k, -, hl⟩ := updateLoop_inv (fun i CS' => Loop idx E x i CS CS')
          (fun i _ _ hl hr => hl.round (update_correct fuel) hx' hr) (Loop.start hinv) hrun
        unfold update
        rw [if_pos hguard, if_neg hu, hrun, ← hl.grown.time]
        rfl
      have hpost := update_correct (fuel + 1) CS x _ hinv hcall
      refine ⟨fuel + 1, _, hcall, fun y => ?_⟩
      by_cases hyx : y = x
      · rw [hyx]
        exact .inr ⟨hpost.updated.trans h₀.time, .refl⟩
      · have hsame : Unchanged CS₁ (CS₁.setUpdated x CS.time) y := by
          refine ⟨?_, rfl⟩
          show (CS₁.updateTs.set x _).getD y 0 = CS₁.updateTs.getD y 0
          rw [List.getD_eq_getElem?_getD, List.getElem?_set_ne (Ne.symm hyx),
            ← List.getD_eq_getElem?_getD]
        rcases hq.others y hyx with hun | ⟨hup, hxy⟩
        · exact .inl (hun.trans hsame)
        · exact .inr ⟨hsame.1.trans hup, hxy.to_reflTransGen⟩

/-- An update ends exactly when its calls are well-founded. -/
theorem update_ends_iff (hinv : Inv idx E CS) (hx : x < CS.clocks.length) :
    (∃ fuel CS', update fuel CS x = some CS') ↔ Ends idx E CS x := by
  constructor
  · rintro ⟨fuel, CS', h⟩
    exact (update_proper fuel CS x CS' hinv h).ends
  · intro h
    obtain ⟨fuel, CS', h, -⟩ := h.settles hx CS hinv (.refl CS) fun _ _ => .inl .refl
    exact ⟨fuel, CS', h⟩

end ViEqui.Clocks.ClockSystem
