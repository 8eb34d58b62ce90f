import ViEqui.Clocks.FBVUpdate

/-!
# Which updates of a lazy clock end

`Calls` are the recursive calls that an update makes from a clock, as they are fixed before
the first of them: a clock is called in the round of its index when the caller has missed
its change, and the bit was stored or comes with a clock of an earlier round.  The update
ends exactly when the calls from its clock are well-founded.
-/

namespace ViEqui.Clocks.ClockSystem

open Relation

/-- The update of `x` calls the update of `p`. -/
inductive Calls (idx : Nat → Nat) (E : Nat → Nat → Prop) (CS : ClockSystem) (x : Nat) :
    Nat → Prop where
  | stored {p : Nat} : p ≠ x → CS.updated x < CS.changed p → p < CS.clocks.length →
      CS.bit x (idx p) = true → Calls idx E CS x p
  | found {p q : Nat} : p ≠ x → CS.updated x < CS.changed p → p < CS.clocks.length →
      Calls idx E CS x q → idx q < idx p → ReflTransGen E q p → Calls idx E CS x p

/-- The calls from `x` are well-founded. -/
def Ends (idx : Nat → Nat) (E : Nat → Nat → Prop) (CS : ClockSystem) (x : Nat) : Prop :=
  Acc (fun p x => Calls idx E CS x p) x

variable {idx : Nat → Nat} {E : Nat → Nat → Prop} {CS CS' CS'' : ClockSystem} {x y p q i : Nat}

namespace Calls

theorem ne (h : Calls idx E CS x p) : p ≠ x := by
  cases h <;> assumption

theorem missed (h : Calls idx E CS x p) : CS.updated x < CS.changed p := by
  cases h <;> assumption

theorem lt (h : Calls idx E CS x p) : p < CS.clocks.length := by
  cases h <;> assumption

theorem not_updated (hinv : Inv idx E CS) (h : Calls idx E CS x p) :
    CS.updated x ≠ CS.time := by
  have hlt := h.missed
  have hle := hinv.changed_le p
  omega

/-- The calls from a clock that is not up to date stay. -/
theorem grown (hg : Grown idx E CS CS') (hu : CS'.updated x = CS.updated x)
    (h : Calls idx E CS x p) : Calls idx E CS' x p := by
  induction h with
  | stored hne hlt hp hbit =>
    refine .stored hne ?_ ?_ (hg.bit x _ hbit)
    · rwa [hu, hg.changed]
    · rwa [hg.length]
  | found hne hlt hp _ hidx hreach ih =>
    refine .found hne ?_ ?_ ih hidx hreach
    · rwa [hu, hg.changed]
    · rwa [hg.length]

end Calls

namespace Ends

theorem of_updated (hinv : Inv idx E CS) (hu : CS.updated x = CS.time) : Ends idx E CS x :=
  Acc.intro x fun _ hp => absurd hu (hp.not_updated hinv)

/-- The calls of a later state are well-founded, so those of now are. -/
theorem of_grown (hg : Grown idx E CS CS')
    (hnew : ∀ y, CS'.updated y ≠ CS.updated y → Ends idx E CS y) (h : Ends idx E CS' x) :
    Ends idx E CS x := by
  induction h with
  | intro x _ ih =>
    by_cases hu : CS'.updated x = CS.updated x
    · exact Acc.intro x fun p hp => ih p (hp.grown hg hu)
    · exact hnew x hu

theorem not_cycle (h : Ends idx E CS x) : ¬TransGen (Calls idx E CS) x x := by
  induction h with
  | intro x _ ih =>
    intro hcycle
    obtain ⟨y, hxy, hyx⟩ := TransGen.head'_iff.mp hcycle
    exact ih y hxy (TransGen.tail' hyx hxy)

end Ends

/-! ## An update that ends has well-founded calls -/

/-- What is known of the calls when an update of `x` has ended. -/
structure Ended (idx : Nat → Nat) (E : Nat → Nat → Prop) (x : Nat) (CS CS' : ClockSystem) :
    Prop where
  ends : Ends idx E CS x
  updated : ∀ y, CS'.updated y ≠ CS.updated y → Ends idx E CS y

/-- `rec` ends only with well-founded calls. -/
def Proper (idx : Nat → Nat) (E : Nat → Nat → Prop)
    (rec : ClockSystem → Nat → Option ClockSystem) : Prop :=
  ∀ CS x CS', Inv idx E CS → rec CS x = some CS' → Ended idx E x CS CS'

/-- What is known of the calls in front of the round `i` for `x`. -/
structure Seen (idx : Nat → Nat) (E : Nat → Nat → Prop) (x i : Nat) (CS CS' : ClockSystem) :
    Prop where
  updated : ∀ y, CS'.updated y ≠ CS.updated y → Ends idx E CS y
  called : ∀ p, idx p < i → Calls idx E CS x p →
    Ends idx E CS p ∧ ∀ q, ReflTransGen E p q → CS'.bit x (idx q) = true

variable {rec : ClockSystem → Nat → Option ClockSystem}

namespace Seen

/-- The bit of a clock that is called is set in its round. -/
theorem bit (hl : Loop idx E x i CS CS') (h : Seen idx E x i CS CS') (hp : idx p ≤ i)
    (hc : Calls idx E CS x p) : CS'.bit x (idx p) = true := by
  cases hc with
  | stored _ _ _ hbit => exact hl.grown.bit x _ hbit
  | @found _ q _ _ _ hq hidx hreach => exact (h.called q (by omega) hq).2 p hreach

theorem follow (hx : x < CS.clocks.length) (hl : Loop idx E x i CS CS')
    (h : Seen idx E x i CS CS') (hp : idx p = i) (hplt : p < CS.clocks.length)
    (hu : Updates idx E p CS' CS'') (he : Ended idx E p CS' CS'') :
    Seen idx E x (i + 1) CS (CS''.addTo x p) := by
  have hx' : x < CS''.clocks.length := by
    rwa [hu.grown.length, hl.grown.length]
  refine ⟨fun y hy => ?_, fun r hr hc => ?_⟩
  · rw [updated_addTo] at hy
    by_cases hy' : CS'.updated y = CS.updated y
    · exact .of_grown hl.grown h.updated (he.updated y (by rwa [hy']))
    · exact h.updated y hy'
  · rcases Nat.lt_succ_iff_lt_or_eq.mp hr with hlt | heq
    · obtain ⟨hends, hbits⟩ := h.called r hlt hc
      refine ⟨hends, fun q hq => ?_⟩
      rw [bit_addTo hx', if_pos rfl, hu.grown.bit x _ (hbits q hq), Bool.true_or]
    · have hrp : r = p := by
        apply hu.inv.idx_inj
        · rw [hu.grown.length, hl.grown.length]
          exact hc.lt
        · rwa [hu.grown.length, hl.grown.length]
        · rw [heq, hp]
      subst hrp
      refine ⟨.of_grown hl.grown h.updated he.ends, fun q hq => ?_⟩
      have hr' : r < CS''.clocks.length := by
        rwa [hu.grown.length, hl.grown.length]
      have hup : CS''.updated r = CS''.time := by
        rw [hu.updated, hu.grown.time]
      rw [bit_addTo hx', if_pos rfl,
        (hu.inv.bit_iff_reach hr' hup (hu.inv.reach_lt hr' hq)).mpr hq, Bool.or_true]

theorem skip (hl : Loop idx E x i CS CS') (h : Seen idx E x i CS CS')
    (hid : ∀ p, CS'.idxToId[i]? = some p →
      ¬(p ≠ x ∧ CS'.bit x i = true ∧ CS.updated x < CS'.changed p)) :
    Seen idx E x (i + 1) CS CS' := by
  refine ⟨h.updated, fun p hp hc => ?_⟩
  rcases Nat.lt_succ_iff_lt_or_eq.mp hp with hlt | heq
  · exact h.called p hlt hc
  · have hp' : CS'.idxToId[i]? = some p := by
      rw [← heq]
      apply hl.inv.id
      rw [hl.grown.length]
      exact hc.lt
    refine absurd ⟨hc.ne, ?_, ?_⟩ (hid p hp')
    · rw [← heq]
      exact h.bit hl (Nat.le_of_eq heq) hc
    · rw [hl.grown.changed]
      exact hc.missed

theorem round (hrec : Correct idx E rec) (hproper : Proper idx E rec)
    (hx : x < CS.clocks.length) (hl : Loop idx E x i CS CS') (h : Seen idx E x i CS CS')
    (hr : updateRound rec x (CS.updated x) i CS' = some CS'') :
    Seen idx E x (i + 1) CS CS'' := by
  rcases hl.round_cases hr with ⟨p, CS₁, hidx, hp, hbit, hcall, rfl⟩ | ⟨rfl, hid⟩
  · exact h.follow hx hl hidx hp (hrec CS' p CS₁ hl.inv hcall) (hproper CS' p CS₁ hl.inv hcall)
  · exact h.skip hl hid

/-- After the loop all calls are seen. -/
theorem ends (hl : Loop idx E x i CS CS') (h : Seen idx E x i CS CS')
    (hi : (CS'.clock x).length ≤ i) : Ends idx E CS x := by
  have hall : ∀ p, Calls idx E CS x p → idx p < i ∧ Ends idx E CS p := by
    intro p hc
    have hlt : idx p < i := by
      induction hc with
      | stored _ _ _ hbit =>
        have hlt := lt_length_of_bit (hl.grown.bit x _ hbit)
        omega
      | found _ _ _ hq _ hreach ih =>
        have hlt := lt_length_of_bit ((h.called _ ih hq).2 _ hreach)
        omega
    exact ⟨hlt, (h.called p hlt hc).1⟩
  exact Acc.intro x fun p hc => (hall p hc).2

end Seen

/-- An update that ends has well-founded calls. -/
theorem update_proper (fuel : Nat) : Proper idx E (update fuel) := by
  induction fuel with
  | zero =>
    intro CS x CS' _ h
    cases h
  | succ fuel ih =>
    intro CS x CS' hinv h
    unfold update at h
    split_ifs at h with hx hup
    · cases h
      exact ⟨.of_updated hinv hup, fun _ hy => absurd rfl hy⟩
    · obtain ⟨CS₁, hloop, rfl⟩ := Option.map_eq_some_iff.mp h
      have hstart : Seen idx E x 0 CS CS :=
        ⟨fun _ hy => absurd rfl hy, fun _ hp => absurd hp (Nat.not_lt_zero _)⟩
      obtain ⟨j, hj, hl, hs⟩ := updateLoop_inv
        (fun i CS' => Loop idx E x i CS CS' ∧ Seen idx E x i CS CS')
        (fun i _ _ h hr => And.intro (h.1.round (update_correct fuel) hx.1 hr)
          (h.2.round (update_correct fuel) ih hx.1 h.1 hr))
        (And.intro (Loop.start hinv) hstart) hloop
      refine ⟨hs.ends hl hj, fun y hy => ?_⟩
      by_cases hyx : y = x
      · rw [hyx]
        exact hs.ends hl hj
      · rw [updated_setUpdated, if_neg hyx] at hy
        · exact hs.updated y hy
        · rw [hl.inv.updateTs, hl.grown.length]
          exact hx.1

end ViEqui.Clocks.ClockSystem
