import ViEqui.Union
import ViEqui.ViewEquality

/-!
# Duplicate leads

What `remove_duplicate_leads` keeps of a list of leads.  It compares merged
sequences with an equality that stops at the end of the shorter one, so an
infeasible lead and a prefix count as other instances of a lead.

* `removeDuplicateLeads_spec`: the scan as a recursion over the list.
* `represented_removeDuplicateLeads_iff`: the condition under which no view
  is lost.
-/

namespace ViEqui

open EventSequence

/-- The two leads have the same reads, with the same values. -/
def Lead.SameReads (l l' : Lead) : Prop :=
  EventSequence.SameReads l.mergedSequence l'.mergedSequence

theorem Lead.SameReads.refl (l : Lead) : l.SameReads l :=
  EventSequence.SameReads.refl _

theorem Lead.SameReads.trans {l l' l'' : Lead} (h : l.SameReads l')
    (h' : l'.SameReads l'') : l.SameReads l'' :=
  EventSequence.SameReads.trans h h'

namespace Builder

/-! ## The scan -/

/-- The leads of `ls` that are not taken for another instance of `l`. -/
def others (fuel : Nat) (l : Lead) (ls : List Lead) : List Lead :=
  ls.filter (fun l' => duplicates fuel l l' ≠ some true)

theorem mem_others {fuel : Nat} {l l' : Lead} {ls : List Lead} :
    l' ∈ others fuel l ls ↔ l' ∈ ls ∧ duplicates fuel l l' ≠ some true := by
  simp [others]

/-- An infeasible lead is taken for another instance of every lead. -/
theorem duplicates_of_empty {fuel : Nat} {l l' : Lead}
    (h : l'.mergedSequence = []) : duplicates fuel l l' = some true := by
  have hsame : l.mergedSequence.same l'.mergedSequence := by
    rw [h]
    cases l.mergedSequence <;> rfl
  rw [duplicates, if_pos hsame]

theorem dropDuplicatesOf_eq {fuel : Nat} {l : Lead} {ls ls' : List Lead}
    (h : dropDuplicatesOf fuel l ls = some ls') : ls' = others fuel l ls := by
  induction ls generalizing ls' with
  | nil =>
    cases h
    rfl
  | cons l' rest ih =>
    simp only [dropDuplicatesOf, Option.bind_eq_bind, Option.bind_eq_some_iff,
      Option.pure_def, Option.some.injEq] at h
    obtain ⟨dup, hdup, rest', hrest, rfl⟩ := h
    rw [ih hrest]
    cases dup with
    | true => simp [others, hdup]
    | false => simp [others, hdup]

theorem length_others_le (fuel : Nat) (l : Lead) (ls : List Lead) :
    (others fuel l ls).length ≤ ls.length := List.length_filter_le _ _

/-- A round for each lead is enough. -/
theorem removeDuplicatesLoop_congr {fuel n n' : Nat} {ls : List Lead}
    (hn : ls.length ≤ n) (hn' : ls.length ≤ n') :
    removeDuplicatesLoop fuel n ls = removeDuplicatesLoop fuel n' ls := by
  induction n generalizing n' ls with
  | zero =>
    have hnil : ls = [] := List.length_eq_zero_iff.mp (by omega)
    rw [hnil]
    cases n' <;> rfl
  | succ n ih =>
    cases ls with
    | nil => cases n' <;> rfl
    | cons l rest =>
      rw [List.length_cons] at hn hn'
      obtain ⟨n', rfl⟩ : ∃ k, n' = k + 1 := ⟨n' - 1, by omega⟩
      rw [removeDuplicatesLoop, removeDuplicatesLoop]
      cases hdrop : dropDuplicatesOf fuel l rest with
      | none => rfl
      | some rest' =>
        have hlen := length_others_le fuel l rest
        rw [← dropDuplicatesOf_eq hdrop] at hlen
        have hleft : removeDuplicatesLoop fuel n rest' =
            removeDuplicatesLoop fuel n' rest' := ih (by omega) (by omega)
        simp only [Option.bind_eq_bind, Option.bind_some, hleft]

/-- The scan keeps the first lead and goes on with the others. -/
theorem removeDuplicateLeads_cons {fuel : Nat} {l : Lead} {rest ls' : List Lead}
    (h : removeDuplicateLeads fuel (l :: rest) = some ls') :
    ∃ kept, ls' = l :: kept ∧
      removeDuplicateLeads fuel (others fuel l rest) = some kept := by
  rw [removeDuplicateLeads, List.length_cons, removeDuplicatesLoop] at h
  simp only [Option.bind_eq_bind, Option.bind_eq_some_iff, Option.pure_def,
    Option.some.injEq] at h
  obtain ⟨rest', hdrop, kept, hkept, rfl⟩ := h
  rw [dropDuplicatesOf_eq hdrop] at hkept
  refine ⟨kept, rfl, ?_⟩
  rw [removeDuplicateLeads, ← hkept]
  exact removeDuplicatesLoop_congr (Nat.le_refl _) (length_others_le fuel l rest)

/-- The scan adds nothing. -/
theorem removeDuplicateLeads_subset {fuel : Nat} {ls ls' : List Lead}
    (h : removeDuplicateLeads fuel ls = some ls') : ls' ⊆ ls := by
  induction hn : ls.length using Nat.strongRecOn generalizing ls ls' with
  | ind n ih =>
    cases ls with
    | nil =>
      cases h
      exact List.Subset.refl _
    | cons l rest =>
      obtain ⟨kept, rfl, hkept⟩ := removeDuplicateLeads_cons h
      have hlen := length_others_le fuel l rest
      rw [List.length_cons] at hn
      have hsub := ih _ (by omega) hkept rfl
      refine List.cons_subset_cons l fun l' hl' => ?_
      exact (mem_others.mp (hsub hl')).1

/-! ## Views that are lost -/

/-- The scan of `ls` behind the leads of `kept` loses no view.  Whenever a
lead `a` removes a feasible one, that one has the same reads as a lead kept
so far or as one that `a` does not remove. -/
def Lossless (fuel : Nat) (kept : List Lead) : List Lead → Prop
  | [] => True
  | a :: rest =>
    (∀ b ∈ rest, b.mergedSequence ≠ [] → duplicates fuel a b = some true →
      ∃ c ∈ a :: kept ++ others fuel a rest, c.SameReads b) ∧
    Lossless fuel (a :: kept) (others fuel a rest)
termination_by ls => ls.length
decreasing_by
  have := length_others_le fuel a rest
  simp only [List.length_cons]
  omega

/-- `ls'` has a lead with the reads of every feasible lead of `ls`. -/
def Represented (ls ls' : List Lead) : Prop :=
  ∀ l ∈ ls, l.mergedSequence ≠ [] → ∃ l' ∈ ls', l'.SameReads l

theorem represented_scan_iff {fuel : Nat} {kept ls ls' : List Lead}
    (h : removeDuplicateLeads fuel ls = some ls') :
    Represented ls (kept ++ ls') ↔ Lossless fuel kept ls := by
  induction hn : ls.length using Nat.strongRecOn generalizing kept ls ls' with
  | ind n ih =>
    cases ls with
    | nil =>
      rw [Lossless]
      exact iff_of_true (fun l hl => absurd hl (by simp)) trivial
    | cons a rest =>
      obtain ⟨ls'', rfl, hrest⟩ := removeDuplicateLeads_cons h
      have hlen := length_others_le fuel a rest
      rw [List.length_cons] at hn
      have hih : Represented (others fuel a rest) (a :: kept ++ ls'') ↔
          Lossless fuel (a :: kept) (others fuel a rest) := ih _ (by omega) hrest rfl
      have hmem : ∀ c, c ∈ kept ++ a :: ls'' ↔ c ∈ a :: kept ++ ls'' := by
        intro c
        simp only [List.mem_append, List.mem_cons]
        tauto
      rw [Lossless, ← hih]
      constructor
      · intro hrep
        refine ⟨fun b hb hne hdup => ?_, fun b hb hne => ?_⟩
        · obtain ⟨c, hc, hsame⟩ := hrep b (List.mem_cons_of_mem a hb) hne
          refine ⟨c, ?_, hsame⟩
          have hc := (hmem c).mp hc
          rw [List.mem_append] at hc ⊢
          exact hc.imp_right fun hc => removeDuplicateLeads_subset hrest hc
        · have hb' := List.mem_cons_of_mem a (mem_others.mp hb).1
          obtain ⟨c, hc, hsame⟩ := hrep b hb' hne
          exact ⟨c, (hmem c).mp hc, hsame⟩
      · rintro ⟨hdropped, hothers⟩ b hb hne
        rcases List.mem_cons.mp hb with rfl | hb
        · exact ⟨b, by simp, Lead.SameReads.refl b⟩
        · by_cases hdup : duplicates fuel a b = some true
          · obtain ⟨c, hc, hsame⟩ := hdropped b hb hne hdup
            rcases List.mem_append.mp hc with hc | hc
            · exact ⟨c, (hmem c).mpr (List.mem_append_left _ hc), hsame⟩
            · -- `c` is feasible, since `a` does not remove it
              have hfeasible : c.mergedSequence ≠ [] := fun hempty =>
                (mem_others.mp hc).2 (duplicates_of_empty hempty)
              obtain ⟨d, hd, hsame'⟩ := hothers c hc hfeasible
              exact ⟨d, (hmem d).mpr hd, hsame'.trans hsame⟩
          · obtain ⟨c, hc, hsame⟩ := hothers b (mem_others.mpr ⟨hb, hdup⟩) hne
            exact ⟨c, (hmem c).mpr hc, hsame⟩

/-- `remove_duplicate_leads` loses no view exactly if the scan is lossless. -/
theorem represented_removeDuplicateLeads_iff {fuel : Nat} {ls ls' : List Lead}
    (h : removeDuplicateLeads fuel ls = some ls') :
    Represented ls ls' ↔ Lossless fuel [] ls := by
  have hscan : Represented ls ([] ++ ls') ↔ Lossless fuel [] ls :=
    represented_scan_iff h
  exact hscan

theorem represented_removeDuplicateLeads_iff_infeasible :
    Represented [{}, racingLead 0 1] [{}] ↔ Lossless 10 [] [{}, racingLead 0 1] :=
  represented_removeDuplicateLeads_iff (by decide +kernel)

/-- An infeasible lead in front removes a feasible one. -/
theorem not_represented_removeDuplicateLeads :
    ¬∀ (fuel : Nat) (ls ls' : List Lead),
      removeDuplicateLeads fuel ls = some ls' → Represented ls ls' := by
  intro h
  have hscan : removeDuplicateLeads 10 [{}, racingLead 0 1] = some [{}] := by
    decide +kernel
  have hload : ∃ e ∈ (racingLead 0 1).mergedSequence,
      e.isRead ∧ e.iid = ⟨2, 0⟩ ∧ e.value = 2 := by
    decide +kernel
  have hrep := h 10 _ _ hscan
  obtain ⟨l, hl, hsame⟩ := hrep (racingLead 0 1) (by simp) (by decide +kernel)
  obtain ⟨e, he, _⟩ := (hsame ⟨2, 0⟩ 2).mpr hload
  rw [List.mem_singleton.mp hl] at he
  exact absurd he (by simp)

end Builder

end ViEqui
