import ViEqui.Lib.Exchange

/-!
# What a shift changes

The shift of `ViEqui.Lib.Exchange` moves the elements with `mine` of a segment
behind `last`.  `Passed a b` are the pairs in which `a` comes to stand behind
`b` by that.

* `clear_iff`: the shift succeeds if no element depends on one that it passes.
* `pairwise_behind`, `pairwise_behind_iff`: a relation between earlier and
  later elements after the shift.
* `latestBefore_behind_iff`: the latest element with a property before a point
  stays the latest, exactly if no element with the property passes it.
* `shiftBehindInPlace_eq`: the loop that moves the elements in place.
-/

namespace Shift

open Precedence

variable {α : Type*}

/-! ## The pairs that a shift turns round -/

/-- `a` is shifted from before `b` to behind it. -/
def Passed (mine : α → Bool) (last : α) (seg : List α) (a b : α) : Prop :=
  mine a ∧ (Precedes seg a b ∧ mine b = false ∨ a ∈ seg ∧ b = last)

/-- The part of `l` from place `n1` on, before place `n2`. -/
def window (n1 n2 : Nat) (l : List α) : List α := (l.drop n1).take (n2 - n1)

theorem window_append {P seg Q : List α} {n2 : Nat}
    (hn2 : n2 = P.length + seg.length) :
    window P.length n2 (P ++ (seg ++ Q)) = seg := by
  rw [window, List.drop_left, hn2, Nat.add_sub_cancel_left, List.take_left]

variable {mine : α → Bool} {last : α} {seg : List α}

theorem precedes_cons_iff {x : α} {l : List α} {a b : α} :
    Precedes (x :: l) a b ↔ a = x ∧ b ∈ l ∨ Precedes l a b := by
  unfold Precedes
  rw [List.cons_sublist_cons', List.singleton_sublist]
  exact or_comm

/-- In a list without duplicates, precedence is asymmetric. -/
theorem not_precedes_of_precedes {l : List α} (hnodup : l.Nodup) {a b : α}
    (h : Precedes l a b) : ¬Precedes l b a := by
  classical
  intro hba
  have hlt := (precedes_iff_idxOf hnodup h.mem_right).mp h
  have hlt' := (precedes_iff_idxOf hnodup hba.mem_right).mp hba
  omega

theorem precedes_trans {l : List α} (hnodup : l.Nodup) {a b c : α}
    (hab : Precedes l a b) (hbc : Precedes l b c) : Precedes l a c := by
  classical
  have hlt := (precedes_iff_idxOf hnodup hab.mem_right).mp hab
  have hlt' := (precedes_iff_idxOf hnodup hbc.mem_right).mp hbc
  exact (precedes_iff_idxOf hnodup hbc.mem_right).mpr (by omega)

/-- Two elements of a list stand in some order. -/
theorem precedes_or_precedes {l : List α} {a b : α} (ha : a ∈ l) (hb : b ∈ l)
    (hne : a ≠ b) : Precedes l a b ∨ Precedes l b a := by
  induction l with
  | nil => cases ha
  | cons x l ih =>
    simp only [precedes_cons_iff]
    rcases List.mem_cons.mp ha with rfl | hal
    · exact .inl (.inl ⟨rfl, (List.mem_cons.mp hb).resolve_left hne.symm⟩)
    · rcases List.mem_cons.mp hb with rfl | hbl
      · exact .inr (.inl ⟨rfl, hal⟩)
      · exact (ih hal hbl).imp .inr .inr

theorem passed_cons_iff {x a b : α} :
    Passed mine last (x :: seg) a b ↔
      (mine x ∧ a = x ∧ (b ∈ seg ∧ mine b = false ∨ b = last)) ∨
        Passed mine last seg a b := by
  unfold Passed
  rw [precedes_cons_iff, List.mem_cons]
  constructor
  · intro ⟨ha, h⟩
    rcases h with ⟨⟨rfl, hb⟩ | hab, hmine⟩ | ⟨rfl | hmem, hb⟩
    · exact .inl ⟨ha, rfl, .inl ⟨hb, hmine⟩⟩
    · exact .inr ⟨ha, .inl ⟨hab, hmine⟩⟩
    · exact .inl ⟨ha, rfl, .inr hb⟩
    · exact .inr ⟨ha, .inr ⟨hmem, hb⟩⟩
  · intro h
    rcases h with ⟨hx, rfl, ⟨hb, hmine⟩ | hb⟩ | ⟨ha, ⟨hab, hmine⟩ | ⟨hmem, hb⟩⟩
    · exact ⟨hx, .inl ⟨.inl ⟨rfl, hb⟩, hmine⟩⟩
    · exact ⟨hx, .inr ⟨.inl rfl, hb⟩⟩
    · exact ⟨ha, .inl ⟨.inr hab, hmine⟩⟩
    · exact ⟨ha, .inr ⟨.inr hmem, hb⟩⟩

/-- A shift to a later place passes what the shorter one passes. -/
theorem Passed.extend {last' : α} {rest : List α} {a b : α}
    (h : Passed mine last seg a b) (hlast : mine last = false) :
    Passed mine last' (seg ++ last :: rest) a b := by
  obtain ⟨ha, h⟩ := h
  refine ⟨ha, .inl ?_⟩
  rcases h with ⟨hab, hb⟩ | ⟨hmem, rfl⟩
  · exact ⟨hab.sublist (List.sublist_append_left _ _), hb⟩
  · exact ⟨precedes_append_cons hmem, hlast⟩

/-- The shift is clear if no element depends on one that it passes. -/
theorem clear_iff {dep : α → α → Bool} :
    Clear dep mine last seg ↔
      ∀ a b, Passed mine last seg a b → dep a b = false := by
  induction seg with
  | nil => simp [Clear, Passed, Precedes]
  | cons x seg ih =>
    simp only [Clear, ih, passed_cons_iff]
    constructor
    · rintro ⟨hx, hrest⟩ a b h
      rcases h with ⟨hmine, rfl, hb⟩ | h
      · refine hx hmine b ?_
        simpa using hb
      · exact hrest a b h
    · intro h
      refine ⟨fun hmine b hb => h x b (.inl ⟨hmine, rfl, ?_⟩), fun a b hab => h a b (.inr hab)⟩
      simpa using hb

/-! ## Relations between earlier and later elements -/

/-- A relation that holds from earlier to later elements holds so after the
shift, if it holds the other way round for the pairs that are turned. -/
theorem pairwise_behind {R : α → α → Prop} {Q : List α}
    (h : (seg ++ last :: Q).Pairwise R)
    (hflip : ∀ a b, Passed mine last seg a b → R b a) :
    (behind mine last seg ++ Q).Pairwise R := by
  induction seg with
  | nil => exact h
  | cons x seg ih =>
    rw [List.cons_append, List.pairwise_cons] at h
    have hrest := ih h.2 fun a b hab => hflip a b (passed_cons_iff.mpr (.inr hab))
    cases hmine : mine x with
    | false =>
      have hx : ∀ b ∈ behind mine last seg ++ Q, R x b := by
        intro b hb
        refine h.1 b ?_
        simp only [behind, List.mem_append, List.mem_cons, List.mem_filter] at hb ⊢
        tauto
      simpa [behind, hmine] using List.pairwise_cons.mpr ⟨hx, hrest⟩
    | true =>
      -- `x` comes to stand right behind `last`
      have hpassed : ∀ b ∈ seg.filter (fun b => !mine b) ++ [last], R b x := by
        intro b hb
        refine hflip x b (passed_cons_iff.mpr (.inl ⟨hmine, rfl, ?_⟩))
        simpa using hb
      have hbehind : ∀ b ∈ seg.filter mine ++ Q, R x b := by
        intro b hb
        refine h.1 b ?_
        simp only [List.mem_append, List.mem_cons, List.mem_filter] at hb ⊢
        tauto
      have hsplit : behind mine last seg ++ Q =
          (seg.filter (fun b => !mine b) ++ [last]) ++ (seg.filter mine ++ Q) := by
        simp [behind]
      have hgoal : behind mine last (x :: seg) ++ Q =
          (seg.filter (fun b => !mine b) ++ [last]) ++ x :: (seg.filter mine ++ Q) := by
        simp [behind, hmine]
      rw [hsplit, List.pairwise_append] at hrest
      rw [hgoal, List.pairwise_append, List.pairwise_cons]
      refine ⟨hrest.1, ⟨hbehind, hrest.2.1⟩, fun b hb c hc => ?_⟩
      rcases List.mem_cons.mp hc with rfl | hc
      · exact hpassed b hb
      · exact hrest.2.2 b hb c hc

/-- After the shift the elements that were passed stand first. -/
theorem precedes_of_passed {a b : α} (Q : List α) (h : Passed mine last seg a b) :
    Precedes (behind mine last seg ++ Q) b a := by
  obtain ⟨ha, h⟩ := h
  have hleft : Precedes (behind mine last seg) b a := by
    have hmine : [a].Sublist (seg.filter mine) := by
      have hmem : a ∈ seg := by
        rcases h with ⟨hab, _⟩ | ⟨hmem, _⟩
        · exact hab.mem_left
        · exact hmem
      exact List.singleton_sublist.mpr (List.mem_filter.mpr ⟨hmem, ha⟩)
    rcases h with ⟨hab, hb⟩ | ⟨_, rfl⟩
    · have hother : [b].Sublist (seg.filter (fun a => !mine a)) :=
        List.singleton_sublist.mpr
          (List.mem_filter.mpr ⟨hab.mem_right, by simp [hb]⟩)
      exact hother.append (hmine.cons last)
    · exact (hmine.cons_cons b).trans (List.sublist_append_right _ _)
  exact hleft.sublist (List.sublist_append_left _ Q)

theorem pairwise_behind_iff {R : α → α → Prop} {P Q : List α}
    (h : (P ++ (seg ++ last :: Q)).Pairwise R) :
    (P ++ (behind mine last seg ++ Q)).Pairwise R ↔
      ∀ a b, Passed mine last seg a b → R b a := by
  constructor
  · intro h' a b hab
    have hprec := (precedes_of_passed Q hab).sublist (List.sublist_append_right P _)
    exact List.pairwise_iff_forall_sublist.mp h' hprec
  · intro hflip
    rw [List.pairwise_append] at h ⊢
    refine ⟨h.1, pairwise_behind h.2.1 hflip, fun a ha b hb => h.2.2 a ha b ?_⟩
    simp only [behind, List.mem_append, List.mem_cons, List.mem_filter] at hb ⊢
    tauto

/-- Whatever stands first after the shift stood first before, or has been
passed. -/
theorem precedes_of_behind {P Q : List α} {x y : α}
    (hnodup : (P ++ (seg ++ last :: Q)).Nodup)
    (h : Precedes (P ++ (behind mine last seg ++ Q)) x y) :
    ¬Precedes (P ++ (seg ++ last :: Q)) y x ∨ Passed mine last seg y x := by
  have hasymm : (P ++ (seg ++ last :: Q)).Pairwise
      fun x y => ¬Precedes (P ++ (seg ++ last :: Q)) y x ∨ Passed mine last seg y x := by
    refine List.pairwise_iff_forall_sublist.mpr fun {x y} hxy => .inl ?_
    exact not_precedes_of_precedes hnodup hxy
  have hshift := (pairwise_behind_iff hasymm).mpr fun a b hab => .inr hab
  exact List.pairwise_iff_forall_sublist.mp hshift h

/-! ## The latest element before a point -/

/-- The latest element with a property comes behind all others that precede
the point. -/
theorem precedes_latestBefore {stop p : α → Bool} {l : List α} {r w a : α}
    (hnodup : l.Nodup) (hr : r ∈ l) (hstop : ∀ x ∈ l, stop x ↔ x = r)
    (hw : latestBefore stop p l = some w) (ha : p a) (har : Precedes l a r)
    (hne : a ≠ w) : Precedes l a w := by
  obtain ⟨R, z, Q, rfl, hz, hR⟩ := exists_first ⟨r, hr, (hstop r hr).mpr rfl⟩
  obtain rfl : z = r := (hstop z (by simp)).mp hz
  rw [latestBefore_append hR hz, latest_eq_some_iff] at hw
  obtain ⟨_, A, B, rfl, hB⟩ := hw
  have hmem : a ∈ A ++ w :: B := (precedes_iff_mem hnodup).mp har
  have hA : a ∈ A := by
    rcases List.mem_append.mp hmem with hA | hB'
    · exact hA
    · rcases List.mem_cons.mp hB' with rfl | hB'
      · exact absurd rfl hne
      · rw [hB a hB'] at ha
        cases ha
  exact (precedes_append_cons hA).sublist (List.sublist_append_left _ _)

theorem latestBefore_precedes {stop p : α → Bool} {l : List α} {r w : α}
    (hr : r ∈ l) (hstop : ∀ x ∈ l, stop x ↔ x = r)
    (hw : latestBefore stop p l = some w) : Precedes l w r := by
  obtain ⟨R, z, Q, rfl, hz, hR⟩ := exists_first ⟨r, hr, (hstop r hr).mpr rfl⟩
  obtain rfl : z = r := (hstop z (by simp)).mp hz
  rw [latestBefore_append hR hz] at hw
  exact precedes_append_cons (mem_of_latest hw)

/-- The latest element with `p` before `r` is the same after the shift,
exactly if no element with `p` passes it.  Elements with `p` keep their order
to `r`. -/
theorem latestBefore_behind_iff {stop p : α → Bool} {P Q : List α} {r : α}
    (hnodup : (P ++ (seg ++ last :: Q)).Nodup) (hr : r ∈ P ++ (seg ++ last :: Q))
    (hperm : (P ++ (seg ++ last :: Q)).Perm (P ++ (behind mine last seg ++ Q)))
    (hstop : ∀ x ∈ P ++ (seg ++ last :: Q), stop x ↔ x = r)
    (hkeep : ∀ w, p w → (Precedes (P ++ (seg ++ last :: Q)) w r ↔
      Precedes (P ++ (behind mine last seg ++ Q)) w r)) :
    latestBefore stop p (P ++ (behind mine last seg ++ Q)) =
        latestBefore stop p (P ++ (seg ++ last :: Q)) ↔
      ∀ a b, p a → Passed mine last seg a b →
        latestBefore stop p (P ++ (seg ++ last :: Q)) ≠ some b := by
  have hsegs : ∀ {a b}, Passed mine last seg a b →
      Precedes (P ++ (seg ++ last :: Q)) a b := by
    intro a b ⟨_, h⟩
    have hin : Precedes (seg ++ last :: Q) a b := by
      rcases h with ⟨hab, _⟩ | ⟨hmem, rfl⟩
      · exact hab.sublist (List.sublist_append_left _ _)
      · exact precedes_append_cons hmem
    exact hin.sublist (List.sublist_append_right _ _)
  generalize hl : P ++ (seg ++ last :: Q) = l at *
  generalize hl' : P ++ (behind mine last seg ++ Q) = l' at *
  have hr' : r ∈ l' := hperm.mem_iff.mp hr
  have hnodup' : l'.Nodup := hperm.nodup_iff.mp hnodup
  have hstop' : ∀ x ∈ l', stop x ↔ x = r := fun x hx =>
    hstop x (hperm.mem_iff.mpr hx)
  constructor
  · intro hsame a b ha hab hb
    -- `a` stands behind `b` and before `r` after the shift
    have hba : Precedes l' b a :=
      hl' ▸ (precedes_of_passed Q hab).sublist (List.sublist_append_right P _)
    have hbr := latestBefore_precedes hr hstop hb
    have har := (hkeep a ha).mp (precedes_trans hnodup (hsegs hab) hbr)
    have hne : a ≠ b := by
      rintro rfl
      exact not_precedes_of_precedes hnodup (hsegs hab) (hsegs hab)
    have hlatest := precedes_latestBefore hnodup' hr' hstop' (hsame.trans hb) ha har hne
    exact not_precedes_of_precedes hnodup' hba hlatest
  · intro hnone
    have hsome : (latestBefore stop p l').isSome ↔ (latestBefore stop p l).isSome := by
      rw [latestBefore_isSome_iff hnodup' hr' hstop',
        latestBefore_isSome_iff hnodup hr hstop]
      exact exists_congr fun w => and_congr_right fun hw => (hkeep w hw).symm
    cases hb : latestBefore stop p l with
    | none =>
      rw [hb] at hsome
      exact Option.not_isSome_iff_eq_none.mp fun h => by simpa using hsome.mp h
    | some b =>
      obtain ⟨b', hb'⟩ : ∃ b', latestBefore stop p l' = some b' :=
        Option.isSome_iff_exists.mp (hsome.mpr (by rw [hb]; rfl))
      rw [hb']
      by_contra hne
      have hne : b' ≠ b := fun h => hne (congrArg some h)
      -- each of the two writes is the later one in one of the lists
      have hlater : Precedes l b' b := by
        have hbr' := (hkeep b' (of_latestBefore hb')).mpr
          (latestBefore_precedes hr' hstop' hb')
        exact precedes_latestBefore hnodup hr hstop hb (of_latestBefore hb') hbr' hne
      have hlater' : Precedes l' b b' := by
        have hbr := (hkeep b (of_latestBefore hb)).mp
          (latestBefore_precedes hr hstop hb)
        exact precedes_latestBefore hnodup' hr' hstop' hb' (of_latestBefore hb) hbr
          hne.symm
      have hpassed : Passed mine last seg b' b := by
        rcases precedes_of_behind (hl ▸ hnodup) (hl' ▸ hlater') with h | h
        · exact absurd (hl ▸ hlater) h
        · exact h
      exact hnone b' b (of_latestBefore hb') hpassed hb

/-- Exchanges keep the order among elements that all depend on each other. -/
theorem Exchange.filter_eq {dep : α → α → Bool} {l l' : List α} {q : α → Bool}
    (h : Exchange dep l l') (hq : ∀ a b, q a → q b → dep a b) :
    l'.filter q = l.filter q := by
  induction h with
  | refl => rfl
  | swap P a b Q _ hab ih =>
    rw [← ih]
    have hnot : q a = false ∨ q b = false := by
      by_contra hboth
      simp only [not_or, Bool.not_eq_false] at hboth
      rw [hq a b hboth.1 hboth.2] at hab
      cases hab
    simp only [List.filter_append, List.filter_cons]
    rcases hnot with hnot | hnot
    · simp [hnot]
    · simp [hnot]

/-! ## The loop -/

section Loop

variable [Inhabited α]

/-- The loop between any two places: the elements from `n1` on are shifted
behind the one at `n2`. -/
theorem shiftBehind_window (dep : α → α → Bool) (mine : α → Bool) (n1 : Nat)
    {n2 : Nat} {l : List α} {last : α} (hlast : l[n2]? = some last) :
    ∃ P Q, l = P ++ (window n1 n2 l ++ last :: Q) ∧
      shiftBehind dep mine n1 n2 (n2 - n1) 0 l =
        if Clear dep mine last (window n1 n2 l) then
          some (P ++ (behind mine last (window n1 n2 l) ++ Q))
        else none := by
  have hn2 : n2 < l.length := (List.getElem?_eq_some_iff.mp hlast).1
  by_cases h12 : n1 ≤ n2
  · obtain ⟨P, seg, x, Q, heq, hP, hlen⟩ := exists_segment h12 hn2
    have hx : x = last := by
      have : l[n2]? = some x := by
        rw [heq, hlen, List.getElem?_append_right (Nat.le_add_right _ _),
          Nat.add_sub_cancel_left, List.getElem?_append_right (Nat.le_refl _),
          Nat.sub_self, List.getElem?_cons_zero]
      rw [hlast] at this
      exact (Option.some.inj this).symm
    subst hx
    have hwindow : window n1 n2 l = seg := by
      rw [heq, ← hP]
      exact window_append hlen
    refine ⟨P, Q, by rw [hwindow]; exact heq, ?_⟩
    rw [hwindow, heq, ← hP]
    exact shiftBehind_append mine P seg Q x hlen
  · have hk : n2 - n1 = 0 := by omega
    have hwindow : window n1 n2 l = [] := by rw [window, hk, List.take_zero]
    have hsplit : l = l.take n2 ++ last :: l.drop (n2 + 1) := by
      have hget : l[n2] = last := by
        rw [List.getElem?_eq_getElem hn2] at hlast
        exact Option.some.inj hlast
      rw [← hget, List.getElem_cons_drop, List.take_append_drop]
    refine ⟨l.take n2, l.drop (n2 + 1), ?_, ?_⟩
    · rw [hwindow]
      exact hsplit
    · rw [hwindow, hk, shiftBehind, if_pos (show Clear dep mine last [] from trivial)]
      exact congrArg some hsplit

/-! A list in place. -/

/-- `shiftUp` on a list in place.  When it fails the list keeps the exchanges
that were made. -/
def shiftUpInPlace (dep : α → α → Bool) : Nat → Nat → List α → Bool × List α
  | 0, _, l => (true, l)
  | n + 1, j, l =>
    if dep (l.getD j default) (l.getD (j + 1) default) then (false, l)
    else shiftUpInPlace dep n (j + 1) (swapAt l j)

/-- `shiftBehind` on a list in place. -/
def shiftBehindInPlace (dep : α → α → Bool) (mine : α → Bool) (n1 n2 : Nat) :
    Nat → Nat → List α → Bool × List α
  | 0, _, l => (true, l)
  | k + 1, delim, l =>
    let i := n1 + k
    if !mine (l.getD i default) then
      shiftBehindInPlace dep mine n1 n2 k delim l
    else
      match shiftUpInPlace dep (n2 - delim - i) i l with
      | (false, l') => (false, l')
      | (true, l') => shiftBehindInPlace dep mine n1 n2 k (delim + 1) l'

variable (dep : α → α → Bool)

theorem shiftUpInPlace_eq (n j : Nat) (l : List α) :
    (shiftUp dep n j l = none ∧ ∃ l', shiftUpInPlace dep n j l = (false, l')) ∨
      ∃ l', shiftUp dep n j l = some l' ∧ shiftUpInPlace dep n j l = (true, l') := by
  induction n generalizing j l with
  | zero => exact .inr ⟨l, rfl, rfl⟩
  | succ n ih =>
    rw [shiftUp, shiftUpInPlace]
    split
    · exact .inl ⟨rfl, l, rfl⟩
    · exact ih (j + 1) (swapAt l j)

theorem shiftBehindInPlace_eq (mine : α → Bool) (n1 n2 k delim : Nat) (l : List α) :
    (shiftBehind dep mine n1 n2 k delim l = none ∧
        ∃ l', shiftBehindInPlace dep mine n1 n2 k delim l = (false, l')) ∨
      ∃ l', shiftBehind dep mine n1 n2 k delim l = some l' ∧
        shiftBehindInPlace dep mine n1 n2 k delim l = (true, l') := by
  induction k generalizing delim l with
  | zero => exact .inr ⟨l, rfl, rfl⟩
  | succ k ih =>
    rw [shiftBehind, shiftBehindInPlace]
    split
    · exact ih delim l
    · rcases shiftUpInPlace_eq dep (n2 - delim - (n1 + k)) (n1 + k) l with
        ⟨hnone, l', hl'⟩ | ⟨l', hsome, hl'⟩
      · rw [hnone, hl']
        exact .inl ⟨rfl, l', rfl⟩
      · rw [hsome, hl']
        exact ih (delim + 1) l'

end Loop

end Shift
