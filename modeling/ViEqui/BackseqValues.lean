import ViEqui.CausalParts
import ViEqui.Lib.Passing

/-!
# Merging the causal prefixes

What the reads of the joined causal prefix of `backseq(e1, e2)` read when it is
replayed from the memory before `e1`.

* `source_consistentMerge`: a read of a merge keeps a source that it had.
* `waitsForE1_iff`: when `e1` is its own delimiter.
* `readsFit_causalPrefix`: the reads of the joined causal prefix.
-/

namespace ViEqui

open AssocMap Precedence Adjacency Shift

namespace Sequence

variable {c : Container} {mem : Memory} {e1 e2 : IID}

/-! ## Merges -/

/-- The view adjustments of the conflict loop keep the sources of the reads of
either sequence. -/
def AdjustKeepsSources (c : Container) (fuel : Nat) (s t : Sequence) : Prop :=
  ∀ s' t', resolveConflicts c fuel s t = some (some (s', t')) →
    ∀ r, (c.getEvent r).isRead →
      source c s' r = source c s r ∧ source c t' r = source c t r

theorem nodup_consistentMerge {fuel : Nat} {s t : Sequence} {m : Merge} (hs : s.Nodup)
    (ht : t.Nodup) (h : consistentMerge fuel c s t = some m) : m.result.Nodup := by
  by_cases hm : m.result = []
  · rw [hm]
    exact List.nodup_nil
  · by_cases hs0 : s = []
    · rw [consistentMerge, if_pos hs0] at h
      cases h
      exact ht
    · by_cases ht0 : t = []
      · rw [consistentMerge, if_neg hs0, if_pos ht0] at h
        cases h
        exact hs
      · obtain ⟨s', t', hres, hjoin, _⟩ := consistentMerge_eq_some hs0 ht0 h hm
        obtain ⟨hps, hpt, hconf⟩ := resolveConflicts_perm hres
        have hs' := hps.nodup_iff.mp hs
        have ht' := hpt.nodup_iff.mp ht
        rw [hjoin] at hm ⊢
        exact ((join_perm hs' ht' hconf).resolve_left hm).nodup_iff.mpr (nodup_union hs' ht')

/-- What the reads of a merge read, they have read in one of its parts. -/
theorem source_consistentMerge {fuel : Nat} {s t : Sequence} {m : Merge} (hs : s.Nodup)
    (ht : t.Nodup) (h : consistentMerge fuel c s t = some m)
    (hkeeps : AdjustKeepsSources c fuel s t) {x : IID} (hx : x ∈ m.result)
    (hread : (c.getEvent x).isRead) :
    (x ∈ s ∧ source c m.result x = source c s x) ∨
      (x ∈ t ∧ source c m.result x = source c t x) := by
  have hm : m.result ≠ [] := List.ne_nil_of_mem hx
  by_cases hs0 : s = []
  · rw [consistentMerge, if_pos hs0] at h
    cases h
    exact .inr ⟨hx, rfl⟩
  · by_cases ht0 : t = []
    · rw [consistentMerge, if_neg hs0, if_pos ht0] at h
      cases h
      exact .inl ⟨hx, rfl⟩
    · have hmem := List.mem_append.mp (consistentMerge_subset h hx)
      obtain ⟨s', t', hres, hjoin, hco⟩ := consistentMerge_eq_some hs0 ht0 h hm
      obtain ⟨hps, hpt, hconf⟩ := resolveConflicts_perm hres
      have hs' := hps.nodup_iff.mp hs
      have ht' := hpt.nodup_iff.mp ht
      have hnodup := nodup_consistentMerge hs ht h
      rw [hjoin] at hnodup ⊢
      rw [source_of_coSanity hnodup hs' ht' hread hco, mergedSource,
        (hkeeps s' t' hres x hread).1, (hkeeps s' t' hres x hread).2]
      cases hsx : source c s x with
      | none =>
        cases htx : source c t x with
        | none =>
          rcases hmem with hmem | hmem
          · exact .inl ⟨hmem, rfl⟩
          · exact .inr ⟨hmem, rfl⟩
        | some w => exact .inr ⟨mem_of_source htx, rfl⟩
      | some v =>
        cases htx : source c t x with
        | none => exact .inl ⟨mem_of_source hsx, rfl⟩
        | some w =>
          by_cases hv : v.pid = x.pid
          · exact .inr ⟨mem_of_source htx, by simp [hv]⟩
          · exact .inl ⟨mem_of_source hsx, by simp [hv]⟩

theorem readsFit_consistentMerge {fuel : Nat} {s t : Sequence} {m : Merge} (hs : s.Nodup)
    (ht : t.Nodup) (h : consistentMerge fuel c s t = some m)
    (hkeeps : AdjustKeepsSources c fuel s t) (hfs : ReadsFit c mem s) (hft : ReadsFit c mem t) :
    ReadsFit c mem m.result := by
  intro x hx hread
  rcases source_consistentMerge hs ht h hkeeps hx hread with ⟨hmem, heq⟩ | ⟨hmem, heq⟩
  · rw [ReadFits, heq]
    exact hfs x hmem hread
  · rw [ReadFits, heq]
    exact hft x hmem hread

theorem hasSources_consistentMerge {fuel : Nat} {s t : Sequence} {m : Merge} {o : Object}
    (hs : s.Nodup) (ht : t.Nodup) (h : consistentMerge fuel c s t = some m)
    (hkeeps : AdjustKeepsSources c fuel s t) (hfs : HasSources c o s) (hft : HasSources c o t) :
    HasSources c o m.result := by
  intro x hx hread ho
  rcases source_consistentMerge hs ht h hkeeps hx hread with ⟨hmem, heq⟩ | ⟨hmem, heq⟩
  · rw [heq]
    exact hfs x hmem hread ho
  · rw [heq]
    exact hft x hmem hread ho

/-- Two sublists of one sequence have no conflict to adjust. -/
theorem adjustKeepsSources_of_sublist {l s t : Sequence} (hl : l.Nodup) (hs : s.Sublist l)
    (ht : t.Sublist l) (fuel : Nat) : AdjustKeepsSources c fuel s t := by
  have hnone : conflictsWith s t = none := by
    cases hconf : conflictsWith s t with
    | none => rfl
    | some p =>
      obtain ⟨hprec, ha, hb, hlt⟩ := conflictsWith_some hconf
      have hback := (precedes_iff_idxOf (hl.sublist ht) ha).mpr hlt
      exact absurd (hback.sublist ht) (not_precedes_of_precedes hl (hprec.sublist hs))
  intro s' t' hres r _
  cases fuel with
  | zero => cases hres
  | succ fuel =>
    rw [resolveConflicts, hnone] at hres
    cases hres
    exact ⟨rfl, rfl⟩

/-! ## The joined causal prefix -/

section Prefix

variable {fuel : Nat} {delim : IID} {P A W Z : Sequence}

/-- The causal prefixes of the events `W`, with `e1` where it is waited for. -/
def joinPart (c : Container) (e1 e2 : IID) (W : Sequence) : Sequence :=
  (withE1 c e1 (scan c e1 e2 W).join).events

def joinE1Part (c : Container) (e1 e2 : IID) (W : Sequence) : Sequence :=
  (withE1 c e1 (scan c e1 e2 W).joinE1).events

def causalPart (c : Container) (e1 e2 : IID) (W : Sequence) : Sequence :=
  (withE1 c e1 (scan c e1 e2 W).causal).events

/-- Some prefix waits for the write `e1`. -/
def WaitsForE1 (c : Container) (e1 e2 : IID) (W : Sequence) : Prop :=
  ∃ p ∈ (scan c e1 e2 W).parts, AwaitsE1 c e1 p

/-- The view adjustments of the second merge keep the sources of the reads. -/
def SecondMergeKeepsSources (c : Container) (fuel : Nat) (e1 e2 : IID) (W : Sequence) : Prop :=
  ∀ first, consistentMerge fuel c (joinPart c e1 e2 W) (joinE1Part c e1 e2 W) = some first →
    AdjustKeepsSources c fuel first.result (causalPart c e1 e2 W)

theorem causalPrefix_eq_some (h : causalPrefix fuel c [] e1 e2 W = some (delim, P)) :
    ∃ first second,
      consistentMerge fuel c (joinPart c e1 e2 W) (joinE1Part c e1 e2 W) = some first ∧
      consistentMerge fuel c first.result (causalPart c e1 e2 W) = some second ∧
      P = second.result ∧ (WaitsForE1 c e1 e2 W → delim = e1) ∧
      (¬WaitsForE1 c e1 e2 W → delim = (scan c e1 e2 W).e1Delim) := by
  have hpart (p : CausalPart) : (if (c.getEvent e1).isWrite then
      addSourceE1 (c.getEvent e1) e1 p else (p, false)).1 = withE1 c e1 p := by
    unfold withE1
    split <;> rfl
  have hwaits (p : CausalPart) : (if (c.getEvent e1).isWrite then
      addSourceE1 (c.getEvent e1) e1 p else (p, false)).2 = true ↔ AwaitsE1 c e1 p := by
    unfold addSourceE1 AwaitsE1
    split
    · next hw =>
      split
      · next ho => exact iff_of_true rfl ⟨hw, ho⟩
      · next ho => exact iff_of_false Bool.false_ne_true fun h => ho h.2
    · next hw => exact iff_of_false Bool.false_ne_true fun h => hw h.1
  unfold causalPrefix at h
  rw [eventIn_nil] at h
  simp only [Option.bind_eq_bind, Option.bind_eq_some_iff, Option.pure_def, Option.some.injEq,
    Prod.mk.injEq, hpart] at h
  obtain ⟨first, hfirst, second, hsecond, hdelim, hP⟩ := h
  have hiff : WaitsForE1 c e1 e2 W ↔
      AwaitsE1 c e1 (scan c e1 e2 W).join ∨ AwaitsE1 c e1 (scan c e1 e2 W).joinE1 ∨
        AwaitsE1 c e1 (scan c e1 e2 W).causal := by
    simp [WaitsForE1, CausalState.parts]
  rw [← hdelim, hiff, ← hwaits, ← hwaits, ← hwaits]
  simp only [Bool.or_eq_true, or_assoc]
  exact ⟨first, second, hfirst, hsecond, hP.symm, fun h => if_pos h, fun h => if_neg h⟩

/-- With `e1` and `e2` apart from the events between them, `e1` is its own
delimiter exactly if some prefix waits for it. -/
theorem waitsForE1_iff (hiid : ∀ e ∈ W, (c.getEvent e).iid = e) (he1 : e1 ∉ e2 :: W)
    (h : causalPrefix fuel c [] e1 e2 W = some (delim, P)) :
    WaitsForE1 c e1 e2 W ↔ delim = e1 := by
  obtain ⟨_, _, -, -, -, hwaits, hnot⟩ := causalPrefix_eq_some h
  refine ⟨hwaits, fun hdelim => ?_⟩
  by_contra hno
  exact he1 (hdelim ▸ hnot hno ▸ e1Delim_scan hiid)

theorem sublist_parts (e1 e2 : IID) (hiid : ∀ e ∈ W, (c.getEvent e).iid = e) :
    (joinPart c e1 e2 W).Sublist (e1 :: W) ∧ (joinE1Part c e1 e2 W).Sublist (e1 :: W) ∧
      (causalPart c e1 e2 W).Sublist (e1 :: W) := by
  obtain ⟨hjoin, hjoinE1, hcausal⟩ := forall_parts.mp (sublist_scan e1 e2 hiid)
  exact ⟨sublist_withE1 hjoin, sublist_withE1 hjoinE1, sublist_withE1 hcausal⟩

/-- A part has `e1` only if it waits for it. -/
theorem awaitsE1_of_mem {p : CausalPart} (hsub : p.events.Sublist W) (he1 : e1 ∉ W)
    (h : e1 ∈ (withE1 c e1 p).events) : AwaitsE1 c e1 p := by
  rcases events_withE1 c e1 p with ⟨hawaits, -⟩ | ⟨-, heq⟩
  · exact hawaits
  · rw [heq] at h
    exact absurd (hsub.subset h) he1

/-- The joined causal prefix has events of `W`, each at most once, and `e1`
only if it was waited for. -/
theorem mem_causalPrefix (hiid : ∀ e ∈ W, (c.getEvent e).iid = e) (hnodup : (e1 :: W).Nodup)
    (h : causalPrefix fuel c [] e1 e2 W = some (delim, P)) :
    P.Nodup ∧ P ⊆ e1 :: W ∧ (e1 ∈ P → delim = e1) := by
  obtain ⟨first, second, hfirst, hsecond, rfl, hwaits, -⟩ := causalPrefix_eq_some h
  obtain ⟨hjoin, hjoinE1, hcausal⟩ := sublist_parts e1 e2 hiid
  have hfirst' := nodup_consistentMerge (hnodup.sublist hjoin) (hnodup.sublist hjoinE1) hfirst
  have hsub1 := consistentMerge_subset hfirst
  have hsub2 := consistentMerge_subset hsecond
  have hmem {x : IID} (hx : x ∈ second.result) : x ∈ joinPart c e1 e2 W ∨
      x ∈ joinE1Part c e1 e2 W ∨ x ∈ causalPart c e1 e2 W := by
    rcases List.mem_append.mp (hsub2 hx) with hx | hx
    · rcases List.mem_append.mp (hsub1 hx) with hx | hx
      · exact .inl hx
      · exact .inr (.inl hx)
    · exact .inr (.inr hx)
  refine ⟨nodup_consistentMerge hfirst' (hnodup.sublist hcausal) hsecond, ?_, ?_⟩
  · intro x hx
    rcases hmem hx with hx | hx | hx
    · exact hjoin.subset hx
    · exact hjoinE1.subset hx
    · exact hcausal.subset hx
  · intro he1
    have hnot : e1 ∉ W := (List.nodup_cons.mp hnodup).1
    obtain ⟨hj, hj1, hc⟩ := forall_parts.mp (sublist_scan e1 e2 hiid)
    refine hwaits ?_
    rcases hmem he1 with hx | hx | hx
    · exact ⟨_, by simp [CausalState.parts], awaitsE1_of_mem hj hnot hx⟩
    · exact ⟨_, by simp [CausalState.parts], awaitsE1_of_mem hj1 hnot hx⟩
    · exact ⟨_, by simp [CausalState.parts], awaitsE1_of_mem hc hnot hx⟩

/-- The reads of the joined causal prefix fit, and those of the object of `e1`
have a source in it when it need not have `e1`. -/
theorem readsFit_causalPrefix (hs : ExecutionSequence c mem (A ++ e1 :: (W ++ Z)))
    (htakes : TakesSources c e1 e2 W) (hmerge : SecondMergeKeepsSources c fuel e1 e2 W)
    (h : causalPrefix fuel c [] e1 e2 W = some (delim, P)) :
    ReadsFit c (memoryBehind c mem A) P ∧
      ((c.getEvent e1).isWrite → delim ≠ e1 → HasSources c (c.getEvent e1).object P) := by
  obtain ⟨first, second, hfirst, hsecond, rfl, hwaits, -⟩ := causalPrefix_eq_some h
  have hiid : ∀ e ∈ W, (c.getEvent e).iid = e := fun e he => hs.iid e (by simp [he])
  have hnodup : (e1 :: W).Nodup := by
    have := hs.nodup.of_append_right
    rw [← List.cons_append] at this
    exact this.of_append_left
  obtain ⟨hjoin, hjoinE1, hcausal⟩ := sublist_parts e1 e2 hiid
  have hscan : ∀ p ∈ (scan c e1 e2 W).parts, PartFits c (valueIn c mem (A ++ [e1])) p :=
    partFits_scan (R := []) (Z := Z) (by simpa using hs) htakes
  have hfits (p : CausalPart) (hp : p ∈ (scan c e1 e2 W).parts) :=
    readsFit_withE1 hs (sublist_scan e1 e2 hiid p hp) (hscan p hp)
  obtain ⟨⟨hfj, hsj⟩, ⟨hfj1, hsj1⟩, ⟨hfc, hsc⟩⟩ := forall_parts.mp hfits
  have hkeeps : AdjustKeepsSources c fuel (joinPart c e1 e2 W) (joinE1Part c e1 e2 W) :=
    adjustKeepsSources_of_sublist hnodup hjoin hjoinE1 fuel
  have hkeeps' := hmerge first hfirst
  have hnj := hnodup.sublist hjoin
  have hnj1 := hnodup.sublist hjoinE1
  have hnc := hnodup.sublist hcausal
  have hn1 := nodup_consistentMerge hnj hnj1 hfirst
  constructor
  · exact readsFit_consistentMerge hn1 hnc hsecond hkeeps'
      (readsFit_consistentMerge hnj hnj1 hfirst hkeeps hfj hfj1) hfc
  · intro hwrite hdelim
    have hnot : ∀ p ∈ (scan c e1 e2 W).parts, ¬AwaitsE1 c e1 p :=
      fun p hp hawaits => hdelim (hwaits ⟨p, hp, hawaits⟩)
    obtain ⟨hj, hj1, hc⟩ := forall_parts.mp hnot
    exact hasSources_consistentMerge hn1 hnc hsecond hkeeps'
      (hasSources_consistentMerge hnj hnj1 hfirst hkeeps (hsj hwrite hj) (hsj1 hwrite hj1))
      (hsc hwrite hc)

end Prefix

end Sequence

end ViEqui
