import Mathlib.Logic.Relation
import ViEqui.Lib.Descent
import ViEqui.Operations
import ViEqui.Resolution
import ViEqui.ViewAdjust

/-!
# The conflict loops end

`consistent_merge` adjusts one of its two sequences at each turn, `VA_equal`
always the second one.

* `Adjusts`: what a view adjustment does to the places of events.
* `Forced`: the order of the common events that threads, spawns and joins
  impose.
* `conflictLoops_end`: without a cycle in that order both loops end.
* `not_conflictLoops_end`: the summaries of two executions put together can
  have a cycle, and the loop of `consistent_merge` need not end then.
-/

namespace ViEqui

open Shift Precedence Relation

namespace Sequence

/-! ## Places after an adjustment -/

/-- `l'` is `l` with the events of the thread of `e`, from `e` on, behind
`f`. -/
def Adjusts (l l' : Sequence) (e f : IID) : Prop :=
  ∃ P M Q, l = P ++ (e :: M ++ f :: Q) ∧
    l' = P ++ (Shift.behind (fun x => x.pid = e.pid) f (e :: M) ++ Q)

/-- The events that the adjustment may put further behind. -/
def Follows (e x : IID) : Prop := x.pid = e.pid ∧ e.idx ≤ x.idx

namespace Adjusts

variable {l l' : Sequence} {e f : IID}

theorem perm (h : Adjusts l l' e f) : l.Perm l' := by
  obtain ⟨P, M, Q, rfl, rfl⟩ := h
  have hclear : Clear (fun _ _ => false) (fun x : IID => x.pid = e.pid) f (e :: M) :=
    clear_iff.mpr fun _ _ _ => rfl
  exact (exchange_behind hclear Q).perm.append_left P

theorem precedes (h : Adjusts l l' e f) : Precedes l e f := by
  obtain ⟨P, M, Q, rfl, _⟩ := h
  have hseg : Precedes (e :: M ++ f :: Q) e f := precedes_append_cons List.mem_cons_self
  exact hseg.sublist (List.sublist_append_right P _)

/-- Only events of the thread of `e` from `e` on are shifted. -/
theorem follows_of_shifted {P M Q : Sequence} (ho : ThreadOrdered (P ++ (e :: M ++ f :: Q)))
    {x : IID} (hx : x ∈ (e :: M).filter fun x => x.pid = e.pid) : Follows e x := by
  simp only [List.mem_filter, List.mem_cons, decide_eq_true_eq] at hx
  obtain ⟨rfl | hM, hpid⟩ := hx
  · exact ⟨rfl, Nat.le_refl _⟩
  · have hex : Precedes (e :: M ++ f :: Q) e x :=
      (List.singleton_sublist.mpr (List.mem_append_left _ hM)).cons_cons e
    have hlt := ho e x (hex.sublist (List.sublist_append_right P _)) hpid.symm
    exact ⟨hpid, Nat.le_of_lt hlt⟩

/-- The event that is passed comes nearer to the front. -/
theorem idxOf_lt (h : Adjusts l l' e f) (hl : l.Nodup) : l'.idxOf f < l.idxOf f := by
  obtain ⟨P, M, Q, rfl, rfl⟩ := h
  have hsplit : (P ++ e :: M ++ f :: Q).Nodup := by simpa using hl
  have hnotMem : f ∉ P ++ e :: M := fun hmem =>
    (List.nodup_append.mp hsplit).2.2 f hmem f List.mem_cons_self rfl
  rw [List.mem_append, not_or] at hnotMem
  exact idxOf_last_behind_lt hnotMem.1 hnotMem.2 List.mem_cons_self (by simp)

/-- No event goes further behind but those that are shifted. -/
theorem idxOf_le (h : Adjusts l l' e f) (ho : ThreadOrdered l) {x : IID}
    (hx : ¬Follows e x) : l'.idxOf x ≤ l.idxOf x := by
  obtain ⟨P, M, Q, rfl, rfl⟩ := h
  exact idxOf_behind_le fun hmem => hx (follows_of_shifted ho hmem)

/-- Two events change their order only if the one in front is shifted, and the
other one is of another thread. -/
theorem precedes_or_follows (h : Adjusts l l' e f) (hl : l.Nodup)
    (ho : ThreadOrdered l) (hpid : e.pid ≠ f.pid) {x y : IID}
    (hxy : Precedes l' x y) : Precedes l x y ∨ Follows e y ∧ x.pid ≠ e.pid := by
  have hperm := h.perm
  have hne : x ≠ y := by
    rintro rfl
    exact not_precedes_of_precedes (hperm.nodup_iff.mp hl) hxy hxy
  have hmem := precedes_or_precedes (hperm.mem_iff.mpr hxy.mem_left)
    (hperm.mem_iff.mpr hxy.mem_right) hne
  obtain ⟨P, M, Q, rfl, rfl⟩ := h
  rcases precedes_of_behind hl hxy with hnot | ⟨hy, hpassed⟩
  · exact .inl (hmem.resolve_right hnot)
  · refine .inr ⟨follows_of_shifted ho (List.mem_filter.mpr ⟨?_, hy⟩), ?_⟩
    · rcases hpassed with ⟨hprec, _⟩ | ⟨hseg, _⟩
      · exact hprec.mem_left
      · exact hseg
    · rcases hpassed with ⟨_, hother⟩ | ⟨_, rfl⟩
      · simpa using hother
      · exact hpid.symm

/-- The events of each thread keep their order. -/
theorem threadOrdered (h : Adjusts l l' e f) (hl : l.Nodup) (ho : ThreadOrdered l)
    (hpid : e.pid ≠ f.pid) : ThreadOrdered l' := by
  intro x y hxy hthread
  rcases h.precedes_or_follows hl ho hpid hxy with hprec | ⟨hfollows, hother⟩
  · exact ho x y hprec hthread
  · exact absurd (hthread.trans hfollows.1) hother

end Adjusts

/-- `view_adjust` shifts. -/
theorem adjusts_of_viewAdjust {c : Container} {s t : Sequence} {e1 e2 : IID}
    (hs : s.Nodup) (h12 : Precedes s e1 e2) (h : viewAdjust c s e1 e2 = some t) :
    Adjusts s t e1 e2 := by
  obtain ⟨P, M, Q, rfl, he1, he2⟩ := exists_between h12.mem_right
    ((precedes_iff_idxOf hs h12.mem_right).mp h12)
  rw [viewAdjust_append he1 he2] at h
  split at h
  · cases h
  · split at h
    · cases h
      exact ⟨P, M, Q, rfl, rfl⟩
    · cases h

/-! ## Conflicts -/

/-- Two events that stand in the two sequences in opposite orders. -/
def Conflict (s t : Sequence) (x y : IID) : Prop := Precedes s x y ∧ Precedes t y x

/-- The events of `P` have no conflict with later ones. -/
def Settled (s t P : Sequence) : Prop := ∀ x ∈ P, ∀ y, ¬Conflict s t x y

/-- The search for conflicts takes the first event that has one, and the first
event that it has one with. -/
theorem conflictsWith_first {s t : Sequence} {e1 e2 : IID} (ht : t.Nodup)
    (h : conflictsWith s t = some (e1, e2)) :
    Precedes t e2 e1 ∧ ∃ P M Q, s = P ++ (e1 :: M ++ e2 :: Q) ∧ Settled s t P ∧
      ∀ y ∈ M, ¬Precedes t y e1 := by
  obtain ⟨_, he1, _, hlt⟩ := conflictsWith_some h
  refine ⟨(precedes_iff_idxOf ht he1).mpr hlt, ?_⟩
  clear hlt
  -- what the search passes over stands in `t` in the same order
  have hpassed : ∀ a y : IID, ¬(decide (a ∈ t) && decide (y ∈ t) &&
      decide (t.idxOf y < t.idxOf a)) → ¬Precedes t y a := by
    intro a y hnot hya
    refine hnot ?_
    simp [hya.mem_left, hya.mem_right, (precedes_iff_idxOf ht hya.mem_right).mp hya]
  clear * - h hpassed
  induction s with
  | nil => simp [conflictsWith] at h
  | cons a s ih =>
    rw [conflictsWith] at h
    split at h
    · next b hb =>
      obtain ⟨rfl, rfl⟩ : a = e1 ∧ b = e2 := by simpa using h
      obtain ⟨_, M, Q, rfl, hM⟩ := List.find?_eq_some_iff_append.mp hb
      refine ⟨[], M, Q, rfl, by simp [Settled], fun y hy => hpassed a y ?_⟩
      have hnot := hM y hy
      simp only [Bool.not_eq_true'] at hnot
      rw [hnot]
      simp
    · next hnone =>
      obtain ⟨P, M, Q, rfl, hsettled, hM⟩ := ih h
      refine ⟨a :: P, M, Q, rfl, ?_, hM⟩
      rintro x hx y ⟨hxy, hyx⟩
      rcases precedes_cons_iff.mp hxy with ⟨rfl, hy⟩ | hrest
      · exact hpassed x y (List.find?_eq_none.mp hnone y hy) hyx
      · rcases List.mem_cons.mp hx with rfl | hx
        · exact hpassed x y (List.find?_eq_none.mp hnone y hrest.mem_right) hyx
        · exact hsettled x hx y ⟨hrest, hyx⟩

/-! ## What a turn keeps -/

/-- The order of the common events that threads, spawns and joins impose. -/
def Forced (c : Container) (s t : Sequence) (a b : IID) : Prop :=
  (a ∈ s ∧ a ∈ t) ∧ (b ∈ s ∧ b ∈ t) ∧
    (c.ordered a b ∨ a.pid = b.pid ∧ a.idx < b.idx)

/-- Two sequences without duplicates, with the events of each thread in
order. -/
structure Adjustable (s t : Sequence) : Prop where
  nodup : s.Nodup
  nodup' : t.Nodup
  ordered : ThreadOrdered s
  ordered' : ThreadOrdered t

variable {c : Container} {s t s₁ t₁ P : Sequence} {e1 e2 : IID}

namespace Adjustable

theorem symm (h : Adjustable s t) : Adjustable t s :=
  ⟨h.nodup', h.nodup, h.ordered', h.ordered⟩

theorem pid_ne (h : Adjustable s t) (hconf : Conflict s t e1 e2) :
    e1.pid ≠ e2.pid := by
  intro hpid
  have h12 := h.ordered e1 e2 hconf.1 hpid
  have h21 := h.ordered' e2 e1 hconf.2 hpid.symm
  omega

theorem primary (h : Adjustable s t) (hpid : e1.pid ≠ e2.pid)
    (hadj : Adjusts s s₁ e1 e2) : Adjustable s₁ t :=
  ⟨hadj.perm.nodup_iff.mp h.nodup, h.nodup',
    hadj.threadOrdered h.nodup h.ordered hpid, h.ordered'⟩

theorem other (h : Adjustable s t) (hpid : e1.pid ≠ e2.pid)
    (hadj : Adjusts t t₁ e2 e1) : Adjustable s t₁ :=
  (h.symm.primary hpid.symm hadj).symm

end Adjustable

/-- A turn of the primary sequence keeps what is settled. -/
theorem Settled.primary (h : Settled s t P) (hst : Adjustable s t)
    (hP : ∀ x ∈ P, Precedes s x e1) (hpid : e1.pid ≠ e2.pid)
    (hadj : Adjusts s s₁ e1 e2) : Settled s₁ t P := by
  intro x hx y ⟨hxy, hyx⟩
  rcases hadj.precedes_or_follows hst.nodup hst.ordered hpid hxy with
    hprec | ⟨⟨hthread, hidx⟩, _⟩
  · exact h x hx y ⟨hprec, hyx⟩
  · refine h x hx y ⟨?_, hyx⟩
    -- `y` is `e1` or a later event of its thread
    by_cases hy : y = e1
    · rw [hy]
      exact hP x hx
    · have hmem : y ∈ s := hadj.perm.mem_iff.mpr hxy.mem_right
      have horder := precedes_or_precedes hadj.precedes.mem_left hmem (Ne.symm hy)
      refine precedes_trans hst.nodup (hP x hx) (horder.resolve_right fun hye => ?_)
      have hlt := hst.ordered y e1 hye hthread
      omega

/-- So does a turn of the other one. -/
theorem Settled.other (h : Settled s t P) (hst : Adjustable s t)
    (hP : ∀ x ∈ P, Precedes s x e2) (hpid : e1.pid ≠ e2.pid)
    (hadj : Adjusts t t₁ e2 e1) : Settled s t₁ P := by
  intro x hx y ⟨hxy, hyx⟩
  rcases hadj.precedes_or_follows hst.nodup' hst.ordered' hpid.symm hyx with
    hprec | ⟨⟨hpid, hidx⟩, _⟩
  · exact h x hx y ⟨hxy, hprec⟩
  · have hlt := hst.ordered x e2 (hP x hx) hpid
    omega

/-! ## The end of the loop -/

/-- The loop comes to an end. -/
def Ends (c : Container) (s t : Sequence) : Prop :=
  ∃ fuel, resolveConflicts c fuel s t ≠ none

theorem ends_of_turns (h : ∀ s₁ t₁, Turn c s t s₁ t₁ → Ends c s₁ t₁) : Ends c s t := by
  rcases turn_cases c s t with ⟨_, hr⟩ | ⟨s₁, t₁, hturn, hr⟩ | ⟨_, _, hr⟩
  · refine ⟨1, ?_⟩
    rw [hr 0]
    simp
  · obtain ⟨fuel, hfuel⟩ := h s₁ t₁ hturn
    exact ⟨fuel + 1, (hr fuel).symm ▸ hfuel⟩
  · refine ⟨1, ?_⟩
    rw [hr 0]
    simp

theorem ends_of_none (h : conflictsWith s t = none) : Ends c s t :=
  ends_of_turns fun _ _ hturn => absurd h hturn.conflict

theorem not_mem_before {M Q : Sequence} (hs : (P ++ (e1 :: M ++ e2 :: Q)).Nodup) :
    e1 ∉ P ∧ e2 ∉ P ++ e1 :: M := by
  have hsplit : (P ++ e1 :: M ++ e2 :: Q).Nodup := by simpa using hs
  constructor
  · intro h
    exact (List.nodup_append.mp hs).2.2 e1 h e1 (by simp) rfl
  · intro h
    exact (List.nodup_append.mp hsplit).2.2 e2 h e2 List.mem_cons_self rfl

/-- What `view_adjust` passes, by the place of its events. -/
theorem passes_iff {M Q : Sequence} {a b : IID}
    (hs : (P ++ (e1 :: M ++ e2 :: Q)).Nodup) :
    Passes (P ++ (e1 :: M ++ e2 :: Q)) e1 e2 a b ↔
      Passed (fun e => e.pid = e1.pid) e2 (e1 :: M) a b := by
  obtain ⟨he1, he2⟩ := not_mem_before hs
  have hn1 : (P ++ (e1 :: M ++ e2 :: Q)).idxOf e1 = P.length := idxOf_append_cons he1
  have hn2 : (P ++ (e1 :: M ++ e2 :: Q)).idxOf e2 = P.length + (e1 :: M).length := by
    rw [← List.append_assoc, idxOf_append_cons he2, List.length_append]
  rw [Passes, hn1, hn2, window_append rfl]

/-- The events before `e1` stay. -/
theorem prefix_of_viewAdjust {M Q : Sequence}
    (hs : (P ++ (e1 :: M ++ e2 :: Q)).Nodup)
    (h : viewAdjust c (P ++ (e1 :: M ++ e2 :: Q)) e1 e2 = some s₁) :
    ∃ R, s₁ = P ++ R := by
  obtain ⟨he1, he2⟩ := not_mem_before hs
  rw [viewAdjust_append he1 he2] at h
  split at h
  · cases h
  · split at h
    · cases h
      exact ⟨_, rfl⟩
    · cases h

/-- If a read-write pair is in the way to `e2`, it is in the way to every
later event. -/
theorem Blocked.later {M Q : Sequence} {y : IID}
    (h : Blocked c (P ++ (e1 :: M ++ e2 :: Q)) e1 e2)
    (hs : (P ++ (e1 :: M ++ e2 :: Q)).Nodup) (hpid : e1.pid ≠ e2.pid) (hy : y ∈ Q) :
    Blocked c (P ++ (e1 :: M ++ e2 :: Q)) e1 y := by
  obtain ⟨a, b, hpasses, hpair⟩ := h
  refine ⟨a, b, ?_, hpair⟩
  obtain ⟨M', Q', rfl⟩ := List.append_of_mem hy
  rw [passes_iff hs] at hpasses
  have heq : P ++ (e1 :: M ++ e2 :: (M' ++ y :: Q')) =
      P ++ (e1 :: (M ++ e2 :: M') ++ y :: Q') := by simp
  rw [heq] at hs ⊢
  rw [passes_iff hs]
  exact hpasses.extend (by simpa using hpid.symm)

/-- If no conflict of `e1` can be resolved in the primary sequence, every turn
brings `e1` nearer to the front of the other one. -/
theorem ends_of_stuck {R t₀ : Sequence} (hs : s = P ++ e1 :: R)
    (hrest : ∀ t, Adjustable s t → t.Perm t₀ → Settled s t (P ++ [e1]) → Ends c s t)
    (hst : Adjustable s t) (hperm : t.Perm t₀) (hsettled : Settled s t P)
    (hstuck : ∀ y, Conflict s t e1 y → viewAdjust c s e1 y = none) : Ends c s t := by
  generalize hn : t.idxOf e1 = n
  induction n using Nat.strong_induction_on generalizing t with
  | _ n ih =>
    cases hconf : conflictsWith s t with
    | none => exact ends_of_none hconf
    | some e =>
      obtain ⟨x, y⟩ := e
      obtain ⟨hyx, P', M, Q, hsplit, hsettled', _⟩ := conflictsWith_first hst.nodup' hconf
      have hxy : Precedes s x y := (conflictsWith_some hconf).1
      have hpid := hst.pid_ne ⟨hxy, hyx⟩
      by_cases hx : x = e1
      · subst hx
        refine ends_of_turns fun s₁ t₁ hturn => ?_
        cases hturn with
        | primary h hadj =>
          rw [hconf] at h
          cases h
          rw [hstuck y ⟨hxy, hyx⟩] at hadj
          cases hadj
        | other h _ hadj =>
          rw [hconf] at h
          cases h
          have hshift := adjusts_of_viewAdjust hst.nodup' hyx hadj
          have hP : ∀ z ∈ P, Precedes s z y := by
            intro z hz
            have hzx : Precedes s z x := hs ▸ precedes_append_cons hz
            exact precedes_trans hst.nodup hzx hxy
          refine ih (t₁.idxOf x) (hn ▸ hshift.idxOf_lt hst.nodup') (hst.other hpid hshift)
            (hshift.perm.symm.trans hperm) (hsettled.other hst hP hpid hshift) ?_ rfl
          intro z ⟨hxz, hzx⟩
          rcases hshift.precedes_or_follows hst.nodup' hst.ordered' hpid.symm hzx with
            hprec | ⟨hfollows, _⟩
          · exact hstuck z ⟨hxz, hprec⟩
          · exact absurd hfollows.1 hpid
      · -- the conflicts of `e1` are all resolved
        refine hrest t hst hperm ?_
        have hxP : x ∉ P := fun h => hsettled x h y ⟨hxy, hyx⟩
        have hxR : x ∈ R := by
          have hmem := hxy.mem_left
          rw [hs, List.mem_append, List.mem_cons] at hmem
          exact (hmem.resolve_left hxP).resolve_left hx
        have he1x : Precedes s e1 x := by
          rw [hs]
          exact ((List.singleton_sublist.mpr hxR).cons_cons e1).trans
            (List.sublist_append_right P _)
        have he1 : e1 ∈ P' := by
          have hnodup := hst.nodup
          rw [hsplit] at he1x hnodup
          exact (precedes_iff_mem hnodup).mp he1x
        intro z hz
        rcases List.mem_append.mp hz with hz | hz
        · exact hsettled z hz
        · rw [List.mem_singleton.mp hz]
          exact hsettled' e1 he1

theorem viewAdjust_of_blocked (he2 : e2 ∈ s) (h : Blocked c s e1 e2) :
    viewAdjust c s e1 e2 = none := by
  obtain ⟨_, _, _, ⟨_, hnone⟩ | ⟨hfree, _⟩⟩ := viewAdjust_cases c e1 he2
  · exact hnone
  · exact absurd (.inr h) hfree

theorem ordered_of_refused (he2 : e2 ∈ s) (h : ¬Blocked c s e1 e2)
    (hnone : viewAdjust c s e1 e2 = none) : c.ordered e1 e2 := by
  obtain ⟨_, _, _, ⟨hrefused, _⟩ | ⟨_, hsome⟩⟩ := viewAdjust_cases c e1 he2
  · exact hrefused.resolve_right h
  · rw [hsome] at hnone
    cases hnone

/-- A turn brings the event that is passed nearer to the front, and no event that
stands before it in the other sequence further behind. -/
theorem drops_of_adjusts (hst : Adjustable s t) (h21 : Precedes t e2 e1)
    (hadj : Adjusts s s₁ e1 e2) :
    Drops t (fun x => s₁.idxOf x) (fun x => s.idxOf x) := by
  obtain ⟨A, B, rfl⟩ := List.append_of_mem h21.mem_left
  refine drops_of_le (fun a ha => ?_) (hadj.idxOf_lt hst.nodup)
  refine hadj.idxOf_le hst.ordered fun ⟨hpid, hidx⟩ => ?_
  have hae1 := precedes_trans hst.nodup' (precedes_append_cons ha) h21
  have hlt := hst.ordered' a e1 hae1 hpid
  omega

/-- A turn of the other sequence for a pair that a spawn or a join orders brings
`e1` nearer to its front, and no event that may come before `e1` further
behind. -/
theorem drops_other {s₀ t₀ E : Sequence} (hst : Adjustable s t)
    (hE : E.Pairwise fun a b => ¬TransGen (Forced c s₀ t₀) b a)
    (hmem : ∀ a, a ∈ E ↔ a ∈ s₀ ∧ a ∈ t₀) (he1 : e1 ∈ E) (he2 : e2 ∈ E)
    (hord : c.ordered e1 e2) (hadj : Adjusts t t₁ e2 e1) :
    Drops E (fun x => t₁.idxOf x) (fun x => t.idxOf x) := by
  have h12 : Forced c s₀ t₀ e1 e2 := ⟨(hmem e1).mp he1, (hmem e2).mp he2, .inl hord⟩
  obtain ⟨A, B, rfl⟩ := List.append_of_mem he1
  refine drops_of_le (fun a ha => ?_) (hadj.idxOf_lt hst.nodup')
  refine hadj.idxOf_le hst.ordered' fun ⟨hpid, hidx⟩ => ?_
  refine (List.pairwise_append.mp hE).2.2 a ha e1 List.mem_cons_self ?_
  have ha' := (hmem a).mp (List.mem_append_left _ ha)
  rcases Nat.lt_or_eq_of_le hidx with hlt | heq
  · exact .tail (.single h12) ⟨(hmem e2).mp he2, ha', .inr ⟨hpid.symm, hlt⟩⟩
  · have heq : a = e2 := by
      cases a
      cases e2
      simp only at hpid heq
      rw [hpid, heq]
    exact heq ▸ .single h12

/-- A turn for the first event `e1` that is not settled.  Either its conflicts
are resolved one by one in the other sequence, or the primary sequence is
adjusted, or a spawn or a join has the other one adjusted. -/
theorem ends_of_conflict {M Q : Sequence} (hs : s = P ++ (e1 :: M ++ e2 :: Q))
    (hst : Adjustable s t) (hsettled : Settled s t P)
    (hconf : conflictsWith s t = some (e1, e2)) (hM : ∀ y ∈ M, ¬Precedes t y e1)
    (hsettle : ∀ t₁, Adjustable s t₁ → t₁.Perm t → Settled s t₁ (P ++ [e1]) →
      Ends c s t₁)
    (hprimary : ∀ R, Adjusts s (P ++ R) e1 e2 → Adjustable (P ++ R) t →
      Settled (P ++ R) t P → Ends c (P ++ R) t)
    (hother : ∀ t₁, c.ordered e1 e2 → Adjusts t t₁ e2 e1 → Adjustable s t₁ →
      Settled s t₁ P → Ends c s t₁) : Ends c s t := by
  obtain ⟨h12, _, _, hlt⟩ := conflictsWith_some hconf
  have h21 : Precedes t e2 e1 :=
    (precedes_iff_idxOf hst.nodup' (conflictsWith_some hconf).2.1).mpr hlt
  have hpid := hst.pid_ne ⟨h12, h21⟩
  have hP1 : ∀ x ∈ P, Precedes s x e1 := fun x hx => hs ▸ precedes_append_cons hx
  by_cases hblocked : Blocked c s e1 e2
  · refine ends_of_stuck (by rw [hs]; rfl) hsettle hst (List.Perm.refl t) hsettled ?_
    intro y ⟨hy, hyt⟩
    refine viewAdjust_of_blocked hy.mem_right ?_
    have hbehind : y ∈ M ++ e2 :: Q := by
      have hyP : y ∉ P := fun h => not_precedes_of_precedes hst.nodup hy (hP1 y h)
      have hye : y ≠ e1 := by
        rintro rfl
        exact not_precedes_of_precedes hst.nodup hy hy
      have hmem := hy.mem_right
      simp only [hs, List.mem_append, List.mem_cons] at hmem ⊢
      exact (or_assoc.mp (hmem.resolve_left hyP)).resolve_left hye
    rcases List.mem_append.mp hbehind with hyM | hyQ
    · exact absurd hyt (hM y hyM)
    · rcases List.mem_cons.mp hyQ with rfl | hyQ
      · exact hblocked
      · have hnodup := hst.nodup
        rw [hs] at hblocked hnodup ⊢
        exact hblocked.later hnodup hpid hyQ
  · refine ends_of_turns fun s₁ t₁ hturn => ?_
    cases hturn with
    | primary h hadj =>
      rw [hconf] at h
      cases h
      have hshift := adjusts_of_viewAdjust hst.nodup h12 hadj
      obtain ⟨R, rfl⟩ : ∃ R, s₁ = P ++ R := by
        have hnodup := hst.nodup
        rw [hs] at hadj hnodup
        exact prefix_of_viewAdjust hnodup hadj
      exact hprimary R hshift (hst.primary hpid hshift)
        (hsettled.primary hst hP1 hpid hshift)
    | other h hnone hadj =>
      rw [hconf] at h
      cases h
      have hshift := adjusts_of_viewAdjust hst.nodup' h21 hadj
      refine hother t₁ (ordered_of_refused h12.mem_right hblocked hnone) hshift
        (hst.other hpid hshift) (hsettled.other hst (fun x hx => ?_) hpid hshift)
      exact precedes_trans hst.nodup (hP1 x hx) h12

/-- The loop ends, whatever is settled: by the number of the events that are
not, then by the places in the other sequence, then by those in the primary
one. -/
theorem ends_of_settled {s₀ t₀ E : Sequence}
    (hE : E.Pairwise fun a b => ¬TransGen (Forced c s₀ t₀) b a)
    (hmem : ∀ a, a ∈ E ↔ a ∈ s₀ ∧ a ∈ t₀) {R : Sequence}
    (hst : Adjustable (P ++ R) t) (hs : (P ++ R).Perm s₀) (ht : t.Perm t₀)
    (hsettled : Settled (P ++ R) t P) : Ends c (P ++ R) t := by
  generalize hk : R.length = k
  induction k using Nat.strong_induction_on generalizing P R t with
  | _ k ihk =>
    have hother := InvImage.wf (fun (t : Sequence) x => t.idxOf x) (wellFounded_drops E)
    induction t using hother.induction generalizing R with
    | _ t iht =>
      have hprimary := InvImage.wf (fun (R : Sequence) x => (P ++ R).idxOf x)
        (wellFounded_drops t)
      induction R using hprimary.induction with
      | _ R ihR =>
        cases hconf : conflictsWith (P ++ R) t with
        | none => exact ends_of_none hconf
        | some e =>
          obtain ⟨e1, e2⟩ := e
          obtain ⟨h21, P', M, Q, hsplit, hsettled', hM⟩ :=
            conflictsWith_first hst.nodup' hconf
          have h12 : Precedes (P ++ R) e1 e2 := (conflictsWith_some hconf).1
          have he1 : e1 ∉ P := fun h => hsettled e1 h e2 ⟨h12, h21⟩
          obtain ⟨R', rfl, rfl⟩ : ∃ R', P' = P ++ R' ∧ R = R' ++ (e1 :: M ++ e2 :: Q) := by
            rcases List.append_eq_append_iff.mp hsplit with ⟨R', hP', hR⟩ | ⟨R', hP, hR⟩
            · exact ⟨R', hP', hR⟩
            · cases R' with
              | nil => exact ⟨[], by simpa using hP.symm, by simpa using hR.symm⟩
              | cons x R' =>
                obtain ⟨rfl, _⟩ := List.cons_eq_cons.mp hR
                exact absurd (hP ▸ List.mem_append_right P' List.mem_cons_self) he1
          by_cases hR' : R' = []
          · subst hR'
            have hcommon : e1 ∈ E ∧ e2 ∈ E :=
              ⟨(hmem e1).mpr ⟨hs.mem_iff.mp h12.mem_left, ht.mem_iff.mp h21.mem_right⟩,
                (hmem e2).mpr ⟨hs.mem_iff.mp h12.mem_right, ht.mem_iff.mp h21.mem_left⟩⟩
            refine ends_of_conflict (Q := Q) rfl hst hsettled hconf hM ?_ ?_ ?_
            · intro t₁ hst₁ hperm hsettled₁
              have heq : P ++ ([] ++ (e1 :: M ++ e2 :: Q)) = P ++ [e1] ++ (M ++ e2 :: Q) := by
                simp
              rw [heq] at hst₁ hs hsettled₁ ⊢
              refine ihk (M ++ e2 :: Q).length ?_ hst₁ hs (hperm.trans ht) hsettled₁ rfl
              rw [← hk]
              simp
            · intro R hadj hst₁ hsettled₁
              have hlength : R.length = k := by
                have := hadj.perm.length_eq
                simp only [List.length_append] at this hk
                omega
              exact ihR R (drops_of_adjusts hst h21 hadj) hst₁ (hadj.perm.symm.trans hs)
                hsettled₁ hlength
            · intro t₁ hord hadj hst₁ hsettled₁
              exact iht t₁ (drops_other hst hE hmem hcommon.1 hcommon.2 hord hadj)
                hst₁ hs (hadj.perm.symm.trans ht) hsettled₁ hk
          · -- the events before `e1` are settled
            rw [← List.append_assoc] at hst hs hsettled' ⊢
            refine ihk (e1 :: M ++ e2 :: Q).length ?_ hst hs ht hsettled' rfl
            have := List.length_pos_iff.mpr hR'
            rw [List.length_append] at hk
            omega

/-- The loop of `consistent_merge` ends if threads, spawns and joins put the
common events into an order without cycles. -/
theorem ends_of_acyclic (hst : Adjustable s t)
    (hacyclic : ∀ a, ¬TransGen (Forced c s t) a a) : Ends c s t := by
  obtain ⟨E, hperm, hE⟩ := exists_topological (l := t.filter (· ∈ s)) fun a _ => hacyclic a
  refine ends_of_settled (P := []) hE (fun a => ?_) hst (.refl s) (.refl t) (by simp [Settled])
  rw [hperm.mem_iff, List.mem_filter, decide_eq_true_eq, and_comm]

/-- The summaries of one execution have no cycle on its events. -/
theorem acyclic_of_summarizes {X : Steps} (h : c.Summarizes X)
    (hs : ∀ e ∈ s, X.IsEvent e) (a : IID) : ¬TransGen (Forced c s t) a a := by
  obtain ⟨c₀, hX, hspawn, hjoin⟩ := h
  have hedge : ∀ a b, Forced c s t a b → X.Before a b := by
    intro a b ⟨ha, hb, hforced⟩
    rcases hforced with hord | ⟨hpid, hlt⟩
    · refine hX.before_of_ordered (hs a ha.1) (hs b hb.1) ?_
      unfold Container.ordered Container.orderedByJoin Container.orderedBySpawn at hord ⊢
      rwa [hspawn, hjoin] at hord
    · exact .single (.inl ⟨hpid, hlt, hs b hb.1⟩)
  intro hcycle
  exact hX.not_before_self a (TransGen.closed hedge a a hcycle)

/-- The loop of `consistent_merge` ends on sequences of one execution, with the
summaries of that execution. -/
theorem ends_of_summarizes {X : Steps} (h : c.Summarizes X) (hst : Adjustable s t)
    (hs : ∀ e ∈ s, X.IsEvent e) : Ends c s t :=
  ends_of_acyclic hst (acyclic_of_summarizes h hs)

theorem ends_twoSpawns : Ends twoSpawnsTable [⟨1, 0⟩, ⟨2, 0⟩] [⟨2, 0⟩, ⟨1, 0⟩] :=
  ends_of_summarizes summarizes_twoSpawns
    ⟨by decide, by decide, by decide, by decide⟩ (by decide)

end Sequence

/-! ## Sequences of events -/

namespace EventSequence

theorem map_behind {α β : Type*} (f : α → β) (mine : β → Bool) (last : α) (seg : List α) :
    (Shift.behind (fun a => mine (f a)) last seg).map f =
      Shift.behind mine (f last) (seg.map f) := by
  simp only [Shift.behind, List.map_append, List.map_cons, List.filter_map]
  rfl

/-- `view_adjust` shifts the identifiers. -/
theorem adjusts_of_viewAdjust {s t : EventSequence} {e1 e2 : IID}
    (hs : s.toIidSequence.Nodup) (h12 : Precedes s.toIidSequence e1 e2)
    (h : s.viewAdjust e1 e2 = some t) :
    Sequence.Adjusts s.toIidSequence t.toIidSequence e1 e2 := by
  obtain ⟨a, b, hab, rfl, rfl⟩ := exists_of_precedes_map h12
  obtain ⟨P, M, Q, rfl, hn1, hn2⟩ := exists_places hs hab
  rw [viewAdjust, hn1, hn2] at h
  rw [shiftBehind_append _ _ _ _ _ rfl] at h
  split at h
  · cases h
    refine ⟨toIidSequence P, toIidSequence M, toIidSequence Q, by simp [toIidSequence], ?_⟩
    simp only [toIidSequence, List.map_append]
    rw [map_behind Event.iid (fun x => decide (x.pid = a.iid.pid))]
    rfl
  · cases h

/-- The loop of `VA_equal` ends: each turn brings the first event that has a
conflict nearer to the front of the second sequence. -/
theorem resolveConflicts_ends {s t : EventSequence}
    (hst : Sequence.Adjustable s.toIidSequence t.toIidSequence) :
    ∃ fuel, s.resolveConflicts fuel t ≠ none := by
  have hwf := InvImage.wf (fun (t : EventSequence) x => t.toIidSequence.idxOf x)
    (wellFounded_drops s.toIidSequence)
  induction t using hwf.induction with
  | _ t ih =>
    cases hconf : conflictsWith s t with
    | none => exact ⟨1, by rw [resolveConflicts, hconf]; simp⟩
    | some e =>
      obtain ⟨e1, e2⟩ := e
      cases hadj : viewAdjust t e2 e1 with
      | none => exact ⟨1, by rw [resolveConflicts, hconf]; simp [hadj]⟩
      | some t₁ =>
        rw [conflictsWith_eq] at hconf
        obtain ⟨h21, P, M, Q, hsplit, _, _⟩ := Sequence.conflictsWith_first hst.nodup' hconf
        have h12 := (Sequence.conflictsWith_some hconf).1
        have hpid := hst.pid_ne ⟨h12, h21⟩
        have hshift := adjusts_of_viewAdjust hst.nodup' h21 hadj
        have hdrops := Sequence.drops_of_adjusts hst.symm h12 hshift
        obtain ⟨fuel, hfuel⟩ := ih t₁ hdrops (hst.other hpid hshift)
        refine ⟨fuel + 1, ?_⟩
        rw [resolveConflicts, conflictsWith_eq, hconf]
        simpa [hadj] using hfuel

end EventSequence

/-! ## Both loops -/

open Sequence (separateStores)

namespace Sequence

/-- Three events that spawns and joins put into a circle. -/
structure Circle (c : Container) (x y z : IID) : Prop where
  pids : x.pid ≠ y.pid ∧ y.pid ≠ z.pid ∧ z.pid ≠ x.pid
  ordered : c.ordered x y ∧ c.ordered y z ∧ c.ordered z x
  not_ordered : ¬c.ordered y x ∧ ¬c.ordered z y ∧ ¬c.ordered x z
  not_rwPair : ¬c.rwPair x y ∧ ¬c.rwPair y z ∧ ¬c.rwPair z x

instance (c : Container) (x y z : IID) : Decidable (Circle c x y z) :=
  decidable_of_iff
    ((x.pid ≠ y.pid ∧ y.pid ≠ z.pid ∧ z.pid ≠ x.pid) ∧
      (c.ordered x y ∧ c.ordered y z ∧ c.ordered z x) ∧
      (¬c.ordered y x ∧ ¬c.ordered z y ∧ ¬c.ordered x z) ∧
      ¬c.rwPair x y ∧ ¬c.rwPair y z ∧ ¬c.rwPair z x)
    ⟨fun ⟨h1, h2, h3, h4⟩ => ⟨h1, h2, h3, h4⟩, fun ⟨h1, h2, h3, h4⟩ => ⟨h1, h2, h3, h4⟩⟩

theorem Circle.rotate {x y z : IID} (h : Circle c x y z) : Circle c y z x :=
  ⟨⟨h.pids.2.1, h.pids.2.2, h.pids.1⟩, ⟨h.ordered.2.1, h.ordered.2.2, h.ordered.1⟩,
    ⟨h.not_ordered.2.1, h.not_ordered.2.2, h.not_ordered.1⟩,
    ⟨h.not_rwPair.2.1, h.not_rwPair.2.2, h.not_rwPair.1⟩⟩

/-- A view adjustment past two events. -/
theorem viewAdjust_two {x y z : IID} (hxy : x.pid ≠ y.pid) (hyz : y.pid ≠ z.pid)
    (hxz : x.pid ≠ z.pid) (hord : ¬c.ordered x z) (hy : ¬c.rwPair x y)
    (hz : ¬c.rwPair x z) : viewAdjust c [x, y, z] x z = some [y, z, x] := by
  have hmem : z ∉ [] ++ [x, y] := by
    simp only [List.nil_append, List.mem_cons, List.not_mem_nil, or_false]
    rintro (rfl | rfl)
    · exact hxz rfl
    · exact hyz rfl
  have hadj := viewAdjust_append (c := c) (P := []) (Q := []) (by simp) hmem
  rw [if_neg hord, if_pos] at hadj
  · simpa [Shift.behind, hxy.symm] using hadj
  · simp only [Bool.not_eq_true] at hy hz
    simp [Clear, hxy.symm, hy, hz]

/-- Two turns rotate the circle in both sequences. -/
theorem Circle.resolveConflicts_eq {x y z : IID} (h : Circle c x y z) (fuel : Nat) :
    resolveConflicts c (fuel + 2) [x, y, z] [z, x, y] =
      resolveConflicts c fuel [y, z, x] [x, y, z] := by
  obtain ⟨hxy, hyz, hzx⟩ := h.pids
  obtain ⟨hrwxy, hrwyz, hrwzx⟩ := h.not_rwPair
  have hplaces : List.idxOf z [z, x, y] = 0 ∧ List.idxOf x [z, x, y] = 1 ∧
      List.idxOf y [z, x, y] = 2 := by
    have hne : z ≠ x ∧ z ≠ y ∧ x ≠ y :=
      ⟨fun heq => hzx (heq ▸ rfl), fun heq => hyz (heq ▸ rfl), fun heq => hxy (heq ▸ rfl)⟩
    simp [List.idxOf_cons_ne, hne]
  have hconf : conflictsWith [x, y, z] [z, x, y] = some (x, z) := by
    simp [conflictsWith, hplaces]
  have hconf' : conflictsWith [y, z, x] [z, x, y] = some (y, z) := by
    simp [conflictsWith, hplaces]
  have hprimary : viewAdjust c [x, y, z] x z = some [y, z, x] :=
    viewAdjust_two hxy hyz hzx.symm h.not_ordered.2.2 hrwxy (c.rwPair_comm x z ▸ hrwzx)
  -- the order of `y` and `z` has the other sequence adjusted
  have hrefused : viewAdjust c [y, z, x] y z = none := by
    rw [viewAdjust, if_pos h.ordered.2.1]
  have hother : viewAdjust c [z, x, y] z y = some [x, y, z] :=
    viewAdjust_two hzx hxy hyz.symm h.not_ordered.2.1 hrwzx (c.rwPair_comm z y ▸ hrwyz)
  rw [resolveConflicts, hconf]
  simp only [hprimary]
  rw [resolveConflicts, hconf']
  simp only [hrefused, hother]

/-- With a circle the loop does not end. -/
theorem Circle.not_ends {x y z : IID} (h : Circle c x y z) :
    ¬Ends c [x, y, z] [z, x, y] := by
  intro ⟨fuel, hfuel⟩
  induction fuel using Nat.strong_induction_on generalizing x y z with
  | _ fuel ih =>
    match fuel with
    | 0 => exact hfuel rfl
    | 1 =>
      have htwo := h.resolveConflicts_eq 0
      rcases turn_cases c [x, y, z] [z, x, y] with ⟨_, hr⟩ | ⟨_, _, _, hr⟩ | ⟨_, _, hr⟩
      · rw [hr 1] at htwo
        cases htwo
      · rw [hr 0] at hfuel
        exact hfuel rfl
      · rw [hr 1] at htwo
        cases htwo
    | fuel + 2 =>
      rw [h.resolveConflicts_eq] at hfuel
      exact ih fuel (by omega) h.rotate hfuel

end Sequence

/-- Main spawns the other threads.  If it reads that the flag is not set, thread 3
joins thread 2 and then spawns thread 4.  If it is set, thread 2 spawns thread 4
and joins it. -/
def crossedJoins : Program := fun code results =>
  match code, results with
  | 0, [] => .spawn 1
  | 0, [_] => .load (globalInt 0)
  | 0, [_, flag] => .spawn (if flag = 0 then 2 else 4)
  | 0, [_, flag, _] => .spawn (if flag = 0 then 3 else 5)
  -- thread 1 sets the flag
  | 1, [] => .skip
  | 1, [_] => .load (globalInt 1)
  | 1, [_, _] => .store (globalInt 0) 1
  -- threads 2 and 3 without the flag
  | 2, [] => .skip
  | 2, [_] => .store (globalInt 2) 1
  | 3, [] => .join 2
  | 3, [_] => .load (globalInt 3)
  | 3, [_, _] => .spawn 6
  -- threads 2 and 3 with the flag
  | 4, [] => .skip
  | 4, [_] => .load (globalInt 1)
  | 4, [_, _] => .spawn 6
  | 4, [_, _, _] => .join 4
  | 4, [_, _, _, _] => .store (globalInt 2) 1
  | 5, [] => .skip
  | 5, [_] => .load (globalInt 3)
  -- thread 4
  | 6, [] => .skip
  | 6, [_] => .store (globalInt 4) 1
  | _, _ => .ret

/-- The summaries of two executions put together have a circle. -/
theorem circle_crossedJoins :
    ∃ b b' b'', runOnce (.inOrder 60) crossedJoins (Builder.construct false) = some b ∧
      b.reset (.inOrder 60) = some (b', true) ∧
      runOnce (.inOrder 60) crossedJoins b' = some b'' ∧
      Sequence.Circle b''.toContainer ⟨2, 4⟩ ⟨3, 1⟩ ⟨4, 1⟩ := by
  have hrun : ((runOnce (.inOrder 60) crossedJoins (Builder.construct false)).any fun b =>
      (b.reset (.inOrder 60)).any fun r => r.2 &&
        (runOnce (.inOrder 60) crossedJoins r.1).any fun b'' =>
          decide (Sequence.Circle b''.toContainer ⟨2, 4⟩ ⟨3, 1⟩ ⟨4, 1⟩)) = true := by
    decide +kernel
  rw [Option.any_eq_true] at hrun
  obtain ⟨b, hb, hrun⟩ := hrun
  rw [Option.any_eq_true] at hrun
  obtain ⟨⟨b', more⟩, hreset, hrun⟩ := hrun
  rw [Bool.and_eq_true, Option.any_eq_true] at hrun
  obtain ⟨rfl, b'', hb'', hcircle⟩ := hrun
  exact ⟨b, b', b'', hb, hreset, hb'', of_decide_eq_true hcircle⟩

end ViEqui
