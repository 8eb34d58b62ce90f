import ViEqui.Adjustment
import ViEqui.Lead
import ViEqui.Replay

/-!
# View equality of leads

How far `VA_equivalent` decides that two leads read the same values.  It
accepts on three paths: equal identifiers, `VA_equal`, and equal maps of read
values.  The first and the last are right; `VA_equal` exchanges two writes of
one object, and a read behind them then has another source.

* `sameReadValues_iff`: the maps of read values are equal exactly if the
  reads and their values are.
* `sameReads_of_vaEquivalent_iff`: `VA_equivalent` is right about two leads
  exactly if `VA_equal` has not changed what a source writes.
-/

namespace ViEqui

open AssocMap Shift Precedence

namespace EventSequence

/-! ## The map of read values -/

theorem readValueMap_concat (s : EventSequence) (e : Event) :
    readValueMap (s ++ [e]) =
      if e.isRead then insert (readValueMap s) e.iid e.value else readValueMap s := by
  rw [readValueMap, List.foldl_append]
  rfl

theorem wf_readValueMap (s : EventSequence) : Wf (readValueMap s) := by
  induction s using List.reverseRecOn with
  | nil => exact wf_nil
  | append_singleton s e ih =>
    rw [readValueMap_concat]
    split
    · exact ih.insert e.iid e.value
    · exact ih

/-- The map holds the value of the last occurrence of a read. -/
theorem find?_readValueMap (s : EventSequence) (r : IID) :
    find? (readValueMap s) r =
      (latest (fun e => e.isRead && e.iid = r) s).map (·.value) := by
  induction s using List.reverseRecOn with
  | nil => rfl
  | append_singleton s e ih =>
    rw [readValueMap_concat, latest_concat]
    by_cases hread : e.isRead
    · rw [if_pos hread, find?_insert]
      by_cases hr : e.iid = r
      · simp [hread, hr]
      · simp [hr, ih]
    · simp [hread, ih]

theorem eq_of_iid_eq {s : EventSequence} (hnodup : s.toIidSequence.Nodup)
    {e e' : Event} (he : e ∈ s) (he' : e' ∈ s) (h : e.iid = e'.iid) : e = e' :=
  List.inj_on_of_nodup_map hnodup he he' h

theorem find?_readValueMap_eq_some {s : EventSequence}
    (hnodup : s.toIidSequence.Nodup) {r : IID} {v : Value} :
    find? (readValueMap s) r = some v ↔
      ∃ e ∈ s, e.isRead ∧ e.iid = r ∧ e.value = v := by
  rw [find?_readValueMap, Option.map_eq_some_iff]
  constructor
  · rintro ⟨e, hlast, hv⟩
    have hp := of_latest hlast
    simp only [Bool.and_eq_true, decide_eq_true_eq] at hp
    exact ⟨e, mem_of_latest hlast, hp.1, hp.2, hv⟩
  · rintro ⟨e, he, hread, hr, hv⟩
    have hsome : (latest (fun e => e.isRead && e.iid = r) s).isSome :=
      latest_isSome.mpr ⟨e, he, by simp [hread, hr]⟩
    obtain ⟨e', hlast⟩ := Option.isSome_iff_exists.mp hsome
    have hp := of_latest hlast
    simp only [Bool.and_eq_true, decide_eq_true_eq] at hp
    have heq : e' = e :=
      eq_of_iid_eq hnodup (mem_of_latest hlast) he (hp.2.trans hr.symm)
    exact ⟨e', hlast, heq ▸ hv⟩

/-- Sequences have the same reads exactly if their maps are equal. -/
theorem sameReads_iff_find?_eq {s t : EventSequence}
    (hs : s.toIidSequence.Nodup) (ht : t.toIidSequence.Nodup) :
    SameReads s t ↔ ∀ r, find? (readValueMap s) r = find? (readValueMap t) r := by
  constructor
  · intro h r
    refine Option.ext fun v => ?_
    rw [find?_readValueMap_eq_some hs, find?_readValueMap_eq_some ht]
    exact h r v
  · intro h r v
    rw [← find?_readValueMap_eq_some hs, ← find?_readValueMap_eq_some ht, h]

end EventSequence

namespace Lead

open EventSequence

/-- The last path of `VA_equivalent` decides the contract. -/
theorem sameReadValues_iff {s t : EventSequence}
    (hs : s.toIidSequence.Nodup) (ht : t.toIidSequence.Nodup) :
    sameReadValues s.readValueMap t.readValueMap ↔ SameReads s t := by
  rw [sameReads_iff_find?_eq hs ht]
  have hwf := wf_readValueMap s
  have hwf' := wf_readValueMap t
  simp only [sameReadValues, Bool.and_eq_true, decide_eq_true_eq, List.all_eq_true]
  constructor
  · rintro ⟨hlen, hsub⟩
    exact hwf.find?_eq_of_length_eq hwf' hlen hsub
  · intro h
    refine ⟨hwf.length_eq hwf' h, fun e he => ?_⟩
    rw [← h]
    exact hwf.find?_eq_some_iff.mpr he

/-! ## The paths of `VA_equivalent` -/

theorem vaEquivalent_eq_true_iff {fuel : Nat} {l l' : Lead} :
    l.vaEquivalent fuel l' = some true ↔
      l.mergedSequence.toIidSequence = l'.mergedSequence.toIidSequence ∨
      l.mergedSequence.vaEqual fuel l'.mergedSequence = some true ∨
      l.mergedSequence.vaEqual fuel l'.mergedSequence = some false ∧
        sameReadValues l.mergedSequence.readValueMap
          l'.mergedSequence.readValueMap := by
  rw [vaEquivalent]
  by_cases hids : l.mergedSequence.toIidSequence = l'.mergedSequence.toIidSequence
  · simp [hids]
  · rw [if_neg hids]
    cases l.mergedSequence.vaEqual fuel l'.mergedSequence with
    | none => simp [hids]
    | some b => cases b <;> simp [hids]

end Lead

namespace EventSequence

/-- `VA_equal` accepts only what exchanges of adjacent events bring about. -/
theorem exchange_of_vaEqual {s t : EventSequence} {fuel : Nat}
    (h : s.vaEqual fuel t = some true) :
    ∃ t' : EventSequence, Exchange Event.rwPair t t' ∧
      s.toIidSequence = t'.toIidSequence := by
  rw [vaEqual, Option.map_eq_some_iff] at h
  obtain ⟨r, hr, htrue⟩ := h
  cases r with
  | none => simp at htrue
  | some t' => exact ⟨t', (exchange_of_resolveConflicts hr).1, by simpa using htrue⟩

/-- Every read has in both sequences sources that write one value. -/
def SameSources (s t : EventSequence) : Prop :=
  ∀ e ∈ s, e.isRead → ∀ e' ∈ t, e'.iid = e.iid →
    (s.source e).map (·.value) = (t.source e').map (·.value)

instance (s t : EventSequence) : Decidable (SameSources s t) :=
  inferInstanceAs (Decidable (∀ e ∈ s, e.isRead → ∀ e' ∈ t, e'.iid = e.iid →
    (s.source e).map (·.value) = (t.source e').map (·.value)))

end EventSequence

namespace Replays

open EventSequence

variable {c : Container} {m : Object → Value} {s t : EventSequence}

theorem nodup_events (hs : Replays c m s) : s.Nodup :=
  List.Nodup.of_map Event.iid hs.nodup

/-- One event in two replays is a read in both. -/
theorem isRead_eq (hs : Replays c m s) (ht : Replays c m t) {e e' : Event}
    (he : e ∈ s) (he' : e' ∈ t) (h : e'.iid = e.iid) : e'.isRead = e.isRead := by
  rw [hs.eq_withValue he, ht.eq_withValue he', h]
  rfl

theorem writesTo_eq (hs : Replays c m s) (ht : Replays c m t)
    {e e' w w' : Event} (he : e ∈ s) (he' : e' ∈ t) (hw : w ∈ s) (hw' : w' ∈ t)
    (h : e'.iid = e.iid) (h' : w'.iid = w.iid) :
    w'.writesTo e' = w.writesTo e := by
  rw [hs.eq_withValue he, ht.eq_withValue he', hs.eq_withValue hw,
    ht.eq_withValue hw', h, h']
  rfl

/-- A read has a source exactly if a write of its object precedes it. -/
theorem source_isSome_iff (hs : Replays c m s) {e : Event} (he : e ∈ s) :
    (s.source e).isSome ↔ ∃ w, w.writesTo e ∧ Precedes s w e := by
  refine latestBefore_isSome_iff hs.nodup_events he fun a ha => ?_
  rw [decide_eq_true_eq]
  exact ⟨fun h => eq_of_iid_eq hs.nodup ha he h, fun h => h ▸ rfl⟩

/-- Exchanges of pairs other than read-write pairs keep which reads have a
source. -/
theorem source_isSome_of_exchange (hs : Replays c m s) (ht : Replays c m t)
    {t' : EventSequence} (hexch : Exchange Event.rwPair t t')
    (hids : s.toIidSequence = t'.toIidSequence) {e e' : Event} (he : e ∈ s)
    (hread : e.isRead) (he' : e' ∈ t) (h : e'.iid = e.iid) :
    (s.source e).isSome ↔ (t.source e').isSome := by
  have hnodup' : t'.toIidSequence.Nodup := hids ▸ hs.nodup
  have hread' : e'.isRead := by rw [hs.isRead_eq ht he he' h, hread]
  rw [hs.source_isSome_iff he, ht.source_isSome_iff he']
  constructor
  · rintro ⟨w, hw, hprec⟩
    -- the write stands before the read in `t'`, hence in `t`
    have hprec' : Precedes t'.toIidSequence w.iid e.iid := hids ▸ hprec.map Event.iid
    obtain ⟨w', e'', hprec', hw', he''⟩ := exists_of_precedes_map hprec'
    have hmem : w' ∈ t := hexch.perm.mem_iff.mpr hprec'.mem_left
    have heq : e'' = e' := eq_of_iid_eq hnodup' hprec'.mem_right
      (hexch.perm.mem_iff.mp he') (he''.trans h.symm)
    subst heq
    have hwrites : w'.writesTo e'' := by
      rw [hs.writesTo_eq ht he he' hprec.mem_left hmem h hw', hw]
    exact ⟨w', hwrites, (hexch.precedes_iff Event.rwPair_comm
      (Event.rwPair_of_writesTo hwrites hread')).mpr hprec'⟩
  · rintro ⟨w', hw', hprec⟩
    have hprec' := (hexch.precedes_iff Event.rwPair_comm
      (Event.rwPair_of_writesTo hw' hread')).mp hprec
    have hprecs : Precedes s.toIidSequence w'.iid e'.iid :=
      hids ▸ hprec'.map Event.iid
    obtain ⟨w, e'', hprecs, hw, he''⟩ := exists_of_precedes_map hprecs
    have heq : e'' = e := eq_of_iid_eq hs.nodup hprecs.mem_right he (he''.trans h)
    subst heq
    refine ⟨w, ?_, hprecs⟩
    rw [← hs.writesTo_eq ht he he' hprecs.mem_left hprec.mem_left h hw.symm, hw']

/-- Reads with the same values have sources that write the same values. -/
theorem source_value_eq (hs : Replays c m s) (ht : Replays c m t) {e e' : Event}
    (he : e ∈ s) (hread : e.isRead) (he' : e' ∈ t) (h : e'.iid = e.iid)
    (hsome : (s.source e).isSome ↔ (t.source e').isSome) :
    (s.source e).map (·.value) = (t.source e').map (·.value) ↔
      e.value = e'.value := by
  have hread' : e'.isRead := by rw [hs.isRead_eq ht he he' h, hread]
  have hobj : e'.object = e.object := by
    rw [hs.eq_withValue he, ht.eq_withValue he', h]
    rfl
  rw [hs.read_value he hread, ht.read_value he' hread', hobj]
  cases hsrc : s.source e with
  | none =>
    cases hsrc' : t.source e' with
    | none => simp
    | some w' => simp [hsrc, hsrc'] at hsome
  | some w =>
    cases hsrc' : t.source e' with
    | none => simp [hsrc, hsrc'] at hsome
    | some w' => simp

/-- Replays have the same reads if they have the same events, and equal
values wherever both have a read. -/
theorem sameReads_of_values (hs : Replays c m s) (ht : Replays c m t)
    (hperm : s.toIidSequence.Perm t.toIidSequence)
    (h : ∀ e ∈ s, e.isRead → ∀ e' ∈ t, e'.iid = e.iid → e.value = e'.value) :
    SameReads s t := by
  intro r v
  constructor
  · rintro ⟨e, he, hread, rfl, rfl⟩
    have hmem : e.iid ∈ t.toIidSequence :=
      hperm.mem_iff.mp (List.mem_map_of_mem he)
    obtain ⟨e', he', hiid⟩ := List.mem_map.mp hmem
    have hread' : e'.isRead := by rw [hs.isRead_eq ht he he' hiid, hread]
    exact ⟨e', he', hread', hiid, (h e he hread e' he' hiid).symm⟩
  · rintro ⟨e', he', hread', rfl, rfl⟩
    have hmem : e'.iid ∈ s.toIidSequence :=
      hperm.mem_iff.mpr (List.mem_map_of_mem he')
    obtain ⟨e, he, hiid⟩ := List.mem_map.mp hmem
    have hread : e.isRead := by rw [ht.isRead_eq hs he' he hiid, hread']
    exact ⟨e, he, hread, hiid, h e he hread e' he' hiid.symm⟩

end Replays

/-! ## The contract of `VA_equivalent` -/

open EventSequence in
/-- `VA_equivalent` accepts only leads with the same reads, exactly if
whatever `VA_equal` accepts has sources of the same values. -/
theorem sameReads_of_vaEquivalent_iff {c : Container} {m : Object → Value}
    {l l' : Lead} (hl : Replays c m l.mergedSequence)
    (hl' : Replays c m l'.mergedSequence) (fuel : Nat) :
    (l.vaEquivalent fuel l' = some true →
        SameReads l.mergedSequence l'.mergedSequence) ↔
      (l.mergedSequence.vaEqual fuel l'.mergedSequence = some true →
        SameSources l.mergedSequence l'.mergedSequence) := by
  constructor
  · intro hcontract hva e he hread e' he' hiid
    obtain ⟨t', hexch, hids⟩ := exchange_of_vaEqual hva
    have hsome := hl.source_isSome_of_exchange hl' hexch hids he hread he' hiid
    have hreads := hcontract (Lead.vaEquivalent_eq_true_iff.mpr (.inr (.inl hva)))
    obtain ⟨e'', he'', _, hiid', hvalue⟩ :=
      (hreads e.iid e.value).mp ⟨e, he, hread, rfl, rfl⟩
    have heq : e'' = e' := eq_of_iid_eq hl'.nodup he'' he' (hiid'.trans hiid.symm)
    refine (hl.source_value_eq hl' he hread he' hiid hsome).mpr ?_
    rw [← heq, hvalue]
  · intro hsources hequiv
    rcases Lead.vaEquivalent_eq_true_iff.mp hequiv with hids | hva | ⟨_, hmaps⟩
    · -- equal identifiers have one replay
      have : l.mergedSequence = l'.mergedSequence := by
        rw [hl.values, hl'.values, hids]
      rw [this]
      exact SameReads.refl _
    · obtain ⟨t', hexch, hids⟩ := exchange_of_vaEqual hva
      have hperm : l.mergedSequence.toIidSequence.Perm
          l'.mergedSequence.toIidSequence := by
        rw [hids]
        exact (hexch.perm.map Event.iid).symm
      refine hl.sameReads_of_values hl' hperm fun e he hread e' he' hiid => ?_
      have hsome := hl.source_isSome_of_exchange hl' hexch hids he hread he' hiid
      exact (hl.source_value_eq hl' he hread he' hiid hsome).mp
        (hsources hva e he hread e' he' hiid)
    · exact (Lead.sameReadValues_iff hl.nodup hl'.nodup).mp hmaps

/-- The replay of the stores in one order, with the load behind. -/
def racingLead (first second : Nat) : Lead :=
  .ofStart racingStores [⟨first, 0⟩, ⟨second, 0⟩, ⟨2, 0⟩] {} []

theorem replays_racingLead :
    Replays racingStores (fun _ => 0) (racingLead 0 1).mergedSequence ∧
      Replays racingStores (fun _ => 0) (racingLead 1 0).mergedSequence := by
  decide +kernel

open EventSequence in
theorem sameReads_of_vaEquivalent_iff_racing :
    ((racingLead 0 1).vaEquivalent 10 (racingLead 1 0) = some true →
        SameReads (racingLead 0 1).mergedSequence (racingLead 1 0).mergedSequence) ↔
      ((racingLead 0 1).mergedSequence.vaEqual 10 (racingLead 1 0).mergedSequence =
          some true →
        SameSources (racingLead 0 1).mergedSequence
          (racingLead 1 0).mergedSequence) :=
  sameReads_of_vaEquivalent_iff replays_racingLead.1 replays_racingLead.2 10

open EventSequence in
/-- `VA_equivalent` takes the two orders of the stores for one view, though
the load returns another value. -/
theorem not_sameReads_of_vaEquivalent :
    ¬∀ (c : Container) (m : Object → Value) (fuel : Nat) (l l' : Lead),
      Replays c m l.mergedSequence → Replays c m l'.mergedSequence →
      l.vaEquivalent fuel l' = some true →
      SameReads l.mergedSequence l'.mergedSequence := by
  intro h
  have hequiv : (racingLead 0 1).vaEquivalent 10 (racingLead 1 0) = some true := by
    decide +kernel
  have hreads := h racingStores (fun _ => 0) 10 _ _ replays_racingLead.1
    replays_racingLead.2 hequiv
  have hmaps := (Lead.sameReadValues_iff replays_racingLead.1.nodup
    replays_racingLead.2.nodup).mpr hreads
  exact absurd hmaps (by decide +kernel)

end ViEqui
