import Mathlib.Data.List.Perm.Basic
import ViEqui.Adjustment
import ViEqui.CausalOrder

/-!
# The consistent merge

What `consistent_merge` does to the events of its two sequences and to the
sources of their reads.

* `resolveConflicts_spec`: the conflicts are resolved by exchanges of
  independent neighbours.
* `join_perm`: a join that does not abort has the events of both sequences.
* `mergeSound_iff`: when a merge is sound.
-/

namespace ViEqui

open Shift Precedence

namespace Sequence

variable {c : Container}

/-! ## Resolving the conflicts -/

theorem ThreadOrdered.of_exchange {s t : Sequence} (h : Exchange c.dependent s t)
    (hs : ThreadOrdered s) : ThreadOrdered t := by
  intro a b hab hpid
  have hdep : c.dependent a b := by simp [Container.dependent, hpid]
  exact hs a b ((h.precedes_iff c.dependent_comm hdep).mpr hab) hpid

/-- The events of a conflict are of two threads. -/
theorem pid_ne_of_conflict {s other : Sequence} {e1 e2 : IID} (ho : other.Nodup)
    (hs : ThreadOrdered s) (hother : ThreadOrdered other)
    (h : conflictsWith s other = some (e1, e2)) : e1.pid ≠ e2.pid := by
  obtain ⟨hprec, he1, _, hlt⟩ := conflictsWith_some h
  intro hpid
  have h12 := hs e1 e2 hprec hpid
  have h21 := hother e2 e1 ((precedes_iff_idxOf ho he1).mpr hlt) hpid.symm
  omega

/-- The loop adjusts both sequences by exchanges of independent neighbours,
until there is no conflict. -/
theorem resolveConflicts_spec {fuel : Nat} {s t s' t' : Sequence}
    (hs : s.Nodup) (ht : t.Nodup) (hos : ThreadOrdered s) (hot : ThreadOrdered t)
    (h : resolveConflicts c fuel s t = some (some (s', t'))) :
    Exchange c.dependent s s' ∧ Exchange c.dependent t t' ∧
      conflictsWith s' t' = none := by
  induction fuel generalizing s t with
  | zero => cases h
  | succ fuel ih =>
    rw [resolveConflicts] at h
    split at h
    · next hnone =>
      cases h
      exact ⟨.refl _, .refl _, hnone⟩
    · next e1 e2 hconf =>
      obtain ⟨hprec, he1, he2, hlt⟩ := conflictsWith_some hconf
      have hpid := pid_ne_of_conflict ht hos hot hconf
      split at h
      · next s'' hadj =>
        have hexch := exchange_of_viewAdjust hpid hprec.mem_right
          ((precedes_iff_idxOf hs hprec.mem_right).mp hprec) hadj
        obtain ⟨hs', ht', hnone⟩ :=
          ih (hexch.perm.nodup_iff.mp hs) ht (hos.of_exchange hexch) hot h
        exact ⟨hexch.trans hs', ht', hnone⟩
      · split at h
        · next t'' hadj =>
          have hexch := exchange_of_viewAdjust hpid.symm he1 hlt hadj
          obtain ⟨hs', ht', hnone⟩ :=
            ih hs (hexch.perm.nodup_iff.mp ht) hos (hot.of_exchange hexch) h
          exact ⟨hs', hexch.trans ht', hnone⟩
        · cases h

/-- The loop keeps the events of both sequences. -/
theorem resolveConflicts_perm {fuel : Nat} {s t s' t' : Sequence}
    (h : resolveConflicts c fuel s t = some (some (s', t'))) :
    s.Perm s' ∧ t.Perm t' ∧ conflictsWith s' t' = none := by
  induction fuel generalizing s t with
  | zero => cases h
  | succ fuel ih =>
    rw [resolveConflicts] at h
    split at h
    · next hnone =>
      cases h
      exact ⟨.refl _, .refl _, hnone⟩
    · next e1 e2 hconf =>
      obtain ⟨hprec, he1, he2, hlt⟩ := conflictsWith_some hconf
      split at h
      · next s'' hadj =>
        obtain ⟨hs', ht', hnone⟩ := ih h
        exact ⟨(viewAdjust_perm hprec.mem_right hadj).trans hs', ht', hnone⟩
      · split at h
        · next t'' hadj =>
          obtain ⟨hs', ht', hnone⟩ := ih h
          exact ⟨hs', (viewAdjust_perm he1 hadj).trans ht', hnone⟩
        · cases h

/-! ## The events of a join -/

/-- `join_prefix` takes primary events in their order. -/
theorem pullPrimary_append {eo : IID} {later pending primary merged : Sequence}
    {merged' rest : Sequence}
    (h : pullPrimary c eo later pending primary merged = some (merged', rest)) :
    merged' ++ rest = merged ++ pending ++ primary := by
  fun_induction pullPrimary c eo later pending primary merged with
  | case1 pending merged =>
    cases h
    simp
  | case2 => cases h
  | case3 => cases h
  | case4 =>
    cases h
    simp
  | case5 | case6 | case7 =>
    rename_i ih
    rw [ih h]
    simp

theorem bringRmwRead_perm {prev : Option IID} {merged merged' : Sequence}
    (h : bringRmwRead c prev merged = some merged') : merged'.Perm merged := by
  have hmove : ∀ r ∈ merged, (merged.erase r ++ [r]).Perm merged := fun r hr =>
    (List.perm_append_singleton r _).trans (List.perm_cons_erase hr).symm
  cases prev with
  | none =>
    cases h
    exact .refl _
  | some r =>
    rw [bringRmwRead] at h
    split at h
    · cases h
      exact .refl _
    · next hr =>
      have hr : r ∈ merged := by
        by_contra hmem
        exact hr (.inl hmem)
      dsimp only at h
      split at h
      · split at h
        · cases h
        · cases h
          exact hmove r hr
      · cases h
        exact hmove r hr

/-- A join of two segments aborts or has the events of both. -/
theorem joinLoop_perm {prev : Option IID} {primary other merged : Sequence} :
    joinLoop c prev primary other merged = [] ∨
      (joinLoop c prev primary other merged).Perm (merged ++ primary ++ other) := by
  induction other generalizing prev primary merged with
  | nil =>
    right
    simp [joinLoop]
  | cons eo later ih =>
    rw [joinLoop]
    cases hpull : pullPrimary c eo later [] primary merged with
    | none => exact .inl rfl
    | some p =>
      obtain ⟨merged', rest⟩ := p
      have happ := pullPrimary_append hpull
      rw [List.append_nil] at happ
      -- whatever the order of the merged events, the loop goes on with `eo`
      have hgoal : ∀ merged'' : Sequence, merged''.Perm merged' →
          (merged'' ++ [eo] ++ rest ++ later).Perm (merged ++ primary ++ eo :: later) := by
        intro merged'' hperm
        rw [← happ]
        refine (((hperm.append_right [eo]).append_right rest).append_right later).trans ?_
        rw [List.append_assoc merged', List.append_assoc merged']
        simp only [List.append_assoc, List.singleton_append]
        refine List.Perm.append_left merged' ?_
        exact List.perm_middle.symm
      have hloop : ∀ merged'' : Sequence, merged''.Perm merged' →
          joinLoop c (some eo) rest later (merged'' ++ [eo]) = [] ∨
            (joinLoop c (some eo) rest later (merged'' ++ [eo])).Perm
              (merged ++ primary ++ eo :: later) := fun merged'' hperm =>
        ih.imp_right fun h => h.trans (hgoal merged'' hperm)
      dsimp only
      split
      · cases hbring : bringRmwRead c prev merged' with
        | none => exact .inl rfl
        | some merged'' => exact hloop merged'' (bringRmwRead_perm hbring)
      · exact hloop merged' (.refl _)

theorem joinPrefix_perm {prev : Option IID} {primary other merged : Sequence} :
    joinPrefix c merged primary prev other = [] ∨
      (joinPrefix c merged primary prev other).Perm (merged ++ primary ++ other) := by
  rw [joinPrefix]
  split
  · next hprimary =>
    right
    simp [hprimary]
  · split
    · next hother =>
      right
      simp [hother]
    · exact joinLoop_perm

/-- The step of `join` at a common event `p`: what is left of the other
sequence splits at `p`. -/
theorem split_at_common {p : IID} {l rest : Sequence} (h : (p :: l).Sublist rest) :
    rest = rest.takeWhile (· ≠ p) ++ p :: (rest.dropWhile (· ≠ p)).tail ∧
      l.Sublist (rest.dropWhile (· ≠ p)).tail := by
  induction rest with
  | nil => cases h
  | cons a rest ih =>
    by_cases ha : a = p
    · subst ha
      simpa using h
    · have htail : (p :: l).Sublist rest := by
        rcases List.cons_sublist_cons'.mp h with h | ⟨hpa, _⟩
        · exact h
        · exact absurd hpa.symm ha
      obtain ⟨hsplit, hsub⟩ := ih htail
      refine ⟨?_, ?_⟩
      · simpa [ha] using hsplit
      · simpa [ha] using hsub

/-- A join aborts or has the events of both sequences, if the common events
stand in one order. -/
theorem joinCommon_perm {other primary seg : Sequence} {prev : Option IID}
    {rest merged : Sequence}
    (hsub : (primary.filter (· ∈ other)).Sublist rest) :
    joinCommon c other primary seg prev rest merged = [] ∨
      (joinCommon c other primary seg prev rest merged).Perm
        (merged ++ seg ++ primary.filter (· ∉ other) ++ rest) := by
  induction primary generalizing seg prev rest merged with
  | nil =>
    rw [joinCommon]
    simpa using joinPrefix_perm
  | cons p primary ih =>
    rw [joinCommon]
    split
    · next hp =>
      have hp : p ∉ other := by simpa using hp
      have hsub' : (primary.filter (· ∈ other)).Sublist rest := by simpa [hp] using hsub
      have hrest : joinCommon c other primary (seg ++ [p]) prev rest merged = [] ∨
          (joinCommon c other primary (seg ++ [p]) prev rest merged).Perm
            (merged ++ (seg ++ [p]) ++ primary.filter (· ∉ other) ++ rest) := ih hsub'
      simpa [hp] using hrest
    · next hp =>
      have hp : p ∈ other := by simpa using hp
      have hcons : (p :: primary.filter (· ∈ other)).Sublist rest := by
        simpa [hp] using hsub
      obtain ⟨hsplit, hsub'⟩ := split_at_common hcons
      generalize rest.takeWhile (· ≠ p) = oseg at hsplit ⊢
      generalize (rest.dropWhile (· ≠ p)).tail = rest' at hsplit hsub' ⊢
      subst hsplit
      have hnext : ∀ merged' : Sequence, merged'.Perm (merged ++ seg ++ oseg) →
          joinCommon c other primary [] (some p) rest' (merged' ++ [p]) = [] ∨
            (joinCommon c other primary [] (some p) rest' (merged' ++ [p])).Perm
              (merged ++ seg ++ (p :: primary).filter (· ∉ other) ++
                (oseg ++ p :: rest')) := by
        intro merged' hperm
        refine ih hsub' |>.imp_right fun h => h.trans ?_
        refine List.perm_iff_count.mpr fun x => ?_
        have hx := hperm.count_eq x
        simp only [List.count_append, List.filter_cons, hp, List.count_cons] at hx ⊢
        simp
        omega
      dsimp only
      split
      · next hempty =>
        refine hnext merged ?_
        simp [hempty.1, hempty.2]
      · split
        · exact .inl rfl
        · next hne =>
          exact hnext _ (joinPrefix_perm.resolve_left hne)

/-- Without a conflict, the common events stand in the order of the other
sequence. -/
theorem common_sublist {s other : Sequence} (hs : s.Nodup) (ho : other.Nodup)
    (h : conflictsWith s other = none) : (s.filter (· ∈ other)).Sublist other := by
  have hperm : (s.filter (· ∈ other)).Perm (other.filter (· ∈ s)) := by
    refine (List.perm_ext_iff_of_nodup (hs.filter _) (ho.filter _)).mpr fun a => ?_
    simp [and_comm]
  have hleft : (s.filter (· ∈ other)).Pairwise
      (fun a b => other.idxOf a ≤ other.idxOf b) := by
    refine List.pairwise_iff_forall_sublist.mpr fun {a b} hab => ?_
    have ha := List.mem_filter.mp (hab.subset (List.mem_cons_self))
    have hb := List.mem_filter.mp (hab.subset (List.mem_cons_of_mem a List.mem_cons_self))
    exact conflictsWith_none h (hab.trans List.filter_sublist)
      (by simpa using ha.2) (by simpa using hb.2)
  have hright : (other.filter (· ∈ s)).Pairwise
      (fun a b => other.idxOf a ≤ other.idxOf b) := by
    refine List.pairwise_iff_forall_sublist.mpr fun {a b} hab => ?_
    have hprec : Precedes other a b := hab.trans List.filter_sublist
    exact Nat.le_of_lt ((precedes_iff_idxOf ho hprec.mem_right).mp hprec)
  have heq : s.filter (· ∈ other) = other.filter (· ∈ s) := by
    refine hperm.eq_of_pairwise (fun a b ha _ hab hba => ?_) hleft hright
    have ha : a ∈ other := by simpa using (List.mem_filter.mp ha).2
    exact (List.idxOf_inj ha).mp (Nat.le_antisymm hab hba)
  rw [heq]
  exact List.filter_sublist

theorem nodup_union {s other : Sequence} (hs : s.Nodup) (ho : other.Nodup) :
    (s.filter (· ∉ other) ++ other).Nodup := by
  refine List.nodup_append.mpr ⟨hs.filter _, ho, ?_⟩
  rintro a ha b hb rfl
  simpa [hb] using (List.mem_filter.mp ha).2

/-- A join of sequences without a conflict aborts or has the events of both,
each once. -/
theorem join_perm {s other : Sequence} (hs : s.Nodup) (ho : other.Nodup)
    (h : conflictsWith s other = none) :
    join c s other = [] ∨
      (join c s other).Perm (s.filter (· ∉ other) ++ other) := by
  have hjoin : joinCommon c other s [] none other [] = [] ∨
      (joinCommon c other s [] none other []).Perm
        ([] ++ [] ++ s.filter (· ∉ other) ++ other) :=
    joinCommon_perm (common_sublist hs ho h)
  simpa [join] using hjoin

/-! ## Soundness -/

/-- What a merge `m` of `s` and `t` promises: exactly their events, in program
order, every read with the source that it has in `s` or in `t`, and no source
for a read of one of them that has none there. -/
structure MergeSound (c : Container) (s t m : Sequence) : Prop where
  nodup : m.Nodup
  mem_iff : ∀ e, e ∈ m ↔ e ∈ s ∨ e ∈ t
  ordered : ThreadOrdered m
  source_left : ∀ r w, (c.getEvent r).isRead → source c s r = some w →
    source c m r = some w
  source_right : ∀ r w, (c.getEvent r).isRead → source c t r = some w →
    source c m r = some w
  no_source_left : ∀ r ∈ s, r ∉ t → (c.getEvent r).isRead →
    source c s r = none → source c m r = none
  no_source_right : ∀ r ∈ t, r ∉ s → (c.getEvent r).isRead →
    source c t r = none → source c m r = none

/-- The adjusted sequences still determine the sources of the reads: the one
that they give to a read, or the one by another thread if they give two, is
its source in `s` and in `t`. -/
def SourcesKept (c : Container) (fuel : Nat) (s t : Sequence) : Prop :=
  ∀ s' t', resolveConflicts c fuel s t = some (some (s', t')) →
    ∀ r w, (c.getEvent r).isRead →
      source c s r = some w ∨ source c t r = some w →
      mergedSource c s' t' r = some w

/-- A merge that succeeds is the join of the adjusted sequences. -/
theorem consistentMerge_eq_some {fuel : Nat} {s t : Sequence} {m : Merge}
    (hs : s ≠ []) (ht : t ≠ []) (h : consistentMerge fuel c s t = some m)
    (hm : m.result ≠ []) :
    ∃ s' t', resolveConflicts c fuel s t = some (some (s', t')) ∧
      m.result = join c s' t' ∧ coSanity c (join c s' t') s' t' := by
  rw [consistentMerge, if_neg hs, if_neg ht] at h
  split at h
  · cases h
  · cases h
    exact absurd rfl hm
  · next s' t' hres =>
    dsimp only at h
    split at h
    · next hco =>
      cases h
      exact ⟨s', t', hres, rfl, hco⟩
    · cases h
      exact absurd rfl hm

/-- A read has a source exactly if a write of its object precedes it. -/
theorem source_isSome_iff {s : Sequence} (hs : s.Nodup) {r : IID} (hr : r ∈ s) :
    (source c s r).isSome ↔
      ∃ w, (c.getEvent w).writesTo (c.getEvent r) ∧ Precedes s w r := by
  rw [source, if_pos hr]
  exact latestBefore_isSome_iff hs hr fun a _ => by simp

theorem source_eq_none_of_exchange {s s' : Sequence} (hs : s.Nodup)
    (hexch : Exchange c.dependent s s') {r : IID} (hread : (c.getEvent r).isRead)
    (h : source c s r = none) : source c s' r = none := by
  by_cases hr : r ∈ s'
  · have hrs : r ∈ s := hexch.perm.mem_iff.mpr hr
    have hs' : s'.Nodup := hexch.perm.nodup_iff.mp hs
    rw [← Option.not_isSome_iff_eq_none] at h ⊢
    rw [source_isSome_iff hs' hr]
    rw [source_isSome_iff hs hrs] at h
    rintro ⟨w, hw, hprec⟩
    have hdep : c.dependent w r := by
      simp [Container.dependent, Container.rwPair, Event.rwPair_of_writesTo hw hread]
    exact h ⟨w, hw, (hexch.precedes_iff c.dependent_comm hdep).mpr hprec⟩
  · rw [source, if_neg hr]

end Sequence

end ViEqui
