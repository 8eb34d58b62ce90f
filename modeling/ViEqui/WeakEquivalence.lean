import ViEqui.LeadSuffix

/-!
# Weakly equivalent leads

`VA_isweakly_prefix` passes over events that the other lead does not have, so neither lead
needs to contain the other one.  If it holds, the first lead can go on with the events that
only the other one has.

* `weakPrefixLoop_some`: what the first loop has checked.
* `extends_of_vaIsWeaklyPrefix`: the first lead and the other events of the second one
  together have the reads of both, with their values.
-/

namespace ViEqui

open AssocMap

namespace Lead

variable {c : Container} {m : Object → Value} {p l : Lead}

/-- The events of `l` that are not in `p`, in the order of `l`. -/
def others (l p : Lead) : Sequence :=
  l.mergedSequence.toIidSequence.filter (· ∉ p.mergedSequence.toIidSequence)

/-- The events of `p` and then the other ones of `l` have in their replay the reads of both
leads with their values. -/
structure Extends (c : Container) (m : Object → Value) (p l : Lead) : Prop where
  own : ∀ r ∈ p.mergedSequence, r.isRead →
    r ∈ replay m (fun _ => none)
      ((p.mergedSequence.toIidSequence ++ l.others p).map c.getEvent)
  other : ∀ r ∈ l.mergedSequence, r.isRead →
    r ∈ replay m (fun _ => none)
      ((p.mergedSequence.toIidSequence ++ l.others p).map c.getEvent)

/-- The first loop has compared the reads that both sequences have, and leaves the events
that only the other one has. -/
theorem weakPrefixLoop_some {p l suffix : EventSequence} {written written' : Memory}
    (hp : p.toIidSequence.Nodup) (hl : l.toIidSequence.Nodup)
    (h : weakPrefixLoop p l written = some (suffix, written')) :
    suffix = p.foldl (fun s e => s.eraseIid e.iid) l ∧
      written' = Sequence.writtenBehind written p ∧ Agree p l := by
  induction p generalizing l written with
  | nil =>
    cases h
    refine ⟨rfl, rfl, ?_⟩
    intro e he
    exact absurd he List.not_mem_nil
  | cons e p ih =>
    rw [EventSequence.toIidSequence, List.map_cons, List.nodup_cons] at hp
    have herased : (l.eraseIid e.iid).toIidSequence.Nodup :=
      hl.sublist (List.eraseP_sublist.map _)
    -- an event of `l` that is looked for later is still there
    have hlater : Agree p (l.eraseIid e.iid) → Agree p l := by
      intro hagree x hx x' hx' hiid hread
      refine hagree x hx x' ?_ hiid hread
      have hne : x'.iid ≠ e.iid := by
        intro heq
        exact hp.1 (heq ▸ hiid ▸ List.mem_map_of_mem hx)
      rw [eraseIid_eq hl, List.mem_filter, decide_eq_true_iff]
      exact ⟨hx', hne⟩
    rw [weakPrefixLoop] at h
    cases hfind : l.findIid e.iid with
    | none =>
      rw [hfind] at h
      have hnone : ∀ x ∈ l, x.iid ≠ e.iid := by
        intro x hx heq
        exact List.find?_eq_none.mp hfind x hx (decide_eq_true heq)
      have hsame : l.eraseIid e.iid = l := by
        apply List.eraseP_of_forall_not
        intro x hx
        simpa using hnone x hx
      obtain ⟨hsuffix, hwritten, hagree⟩ := ih hp.2 hl h
      refine ⟨?_, hwritten, ?_⟩
      · rw [List.foldl_cons, hsame]
        exact hsuffix
      · intro x hx x' hx' hiid hread
        rcases List.mem_cons.mp hx with rfl | hx
        · exact absurd hiid (hnone x' hx')
        · exact hagree x hx x' hx' hiid hread
    | some e' =>
      rw [hfind] at h
      dsimp only at h
      have hvalue : ¬(e.isRead && decide (e'.value ≠ e.value)) = true := by
        intro hdiffer
        rw [if_pos hdiffer] at h
        cases h
      rw [if_neg hvalue] at h
      obtain ⟨hsuffix, hwritten, hagree⟩ := ih hp.2 herased h
      obtain ⟨hmem, hiid'⟩ := mem_of_findIid hfind
      refine ⟨hsuffix, hwritten, ?_⟩
      intro x hx x' hx' hiid hread
      rcases List.mem_cons.mp hx with rfl | hx
      · rw [EventSequence.eq_of_iid_eq hl hx' hmem (hiid.trans hiid'.symm)]
        simpa [hread] using hvalue
      · exact hlater hagree x hx x' hx' hiid hread

/-- A weak prefix goes on with the events that only the other lead has. -/
theorem extends_of_vaIsWeaklyPrefix (hp : Replays c m p.mergedSequence)
    (hl : Replays c m l.mergedSequence)
    (hord : Sequence.ThreadOrdered l.mergedSequence.toIidSequence)
    (hacc : Accesses l.mergedSequence) (h : p.vaIsWeaklyPrefix l) : Extends c m p l := by
  unfold vaIsWeaklyPrefix at h
  cases hloop : weakPrefixLoop p.mergedSequence l.mergedSequence [] with
  | none =>
    rw [hloop] at h
    cases h
  | some r =>
    obtain ⟨suffix, written⟩ := r
    rw [hloop] at h
    obtain ⟨hsuffix, rfl, hagree⟩ := weakPrefixLoop_some hp.nodup hl.nodup hloop
    rw [foldl_eraseIid hl.nodup] at hsuffix
    have hreplay : replay m (fun _ => none)
        ((p.mergedSequence.toIidSequence ++ l.others p).map c.getEvent) =
          p.mergedSequence ++ suffix := by
      have hothers : l.others p = suffix.toIidSequence := by
        rw [hsuffix, others, toIidSequence_filter _ (fun i => i ∉ p.mergedSequence.toIidSequence)]
      have hrest := replay_suffix (S := []) hp hl hord hacc hagree hsuffix.symm
        (by simpa using h)
      rw [List.append_nil] at hrest
      rw [hothers, List.map_append, replay_append, ← hp.values, hrest]
    constructor
    · intro r hr _
      rw [hreplay]
      exact List.mem_append_left _ hr
    · intro r hr hread
      rw [hreplay, List.mem_append]
      by_cases hrp : r.iid ∈ p.mergedSequence.toIidSequence
      · exact Or.inl (mem_pre hp hl hagree hr hread hrp)
      · right
        rw [hsuffix, List.mem_filter, decide_eq_true_iff]
        exact ⟨hr, hrp⟩

/-- Each of two weakly equivalent leads goes on with the events that only the other one has,
and both then have the reads of both. -/
theorem extends_of_vaIsWeaklyEquivalent (hp : Replays c m p.mergedSequence)
    (hl : Replays c m l.mergedSequence)
    (hpord : Sequence.ThreadOrdered p.mergedSequence.toIidSequence)
    (hlord : Sequence.ThreadOrdered l.mergedSequence.toIidSequence)
    (hpacc : Accesses p.mergedSequence) (hlacc : Accesses l.mergedSequence)
    (h : p.vaIsWeaklyEquivalent l) : Extends c m p l ∧ Extends c m l p := by
  rw [vaIsWeaklyEquivalent, Bool.and_eq_true] at h
  exact ⟨extends_of_vaIsWeaklyPrefix hp hl hlord hlacc h.1,
    extends_of_vaIsWeaklyPrefix hl hp hpord hpacc h.2⟩

theorem extends_of_vaIsWeaklyEquivalent_storeLoadStore :
    let p := ofReplay storeLoadStore [⟨0, 0⟩, ⟨2, 0⟩]
    let l := ofReplay storeLoadStore [⟨0, 0⟩, ⟨1, 0⟩]
    Extends storeLoadStore (fun _ => 0) p l ∧ Extends storeLoadStore (fun _ => 0) l p :=
  extends_of_vaIsWeaklyEquivalent (by decide +kernel) (by decide +kernel) (by decide +kernel)
    (by decide +kernel) ⟨by decide +kernel, by decide +kernel⟩
    ⟨by decide +kernel, by decide +kernel⟩ (by decide +kernel)

/-- The second loop takes a heap store for a write of a global object.  And without its read
the write of an increment has another value behind another write. -/
theorem not_extends_of_vaIsWeaklyEquivalent :
    (¬∀ c m (p l : Lead), Replays c m p.mergedSequence → Replays c m l.mergedSequence →
      Sequence.ThreadOrdered p.mergedSequence.toIidSequence →
      Sequence.ThreadOrdered l.mergedSequence.toIidSequence →
      (∀ s ∈ [p.mergedSequence, l.mergedSequence], ∀ w ∈ s, w.isWrite → w.isRmw →
        ∃ r ∈ s, r.isRead ∧ r.iid = ⟨w.iid.pid, w.iid.idx - 1⟩) →
      p.vaIsWeaklyEquivalent l → Extends c m p l ∧ Extends c m l p) ∧
    ¬∀ c m (p l : Lead), Replays c m p.mergedSequence → Replays c m l.mergedSequence →
      Sequence.ThreadOrdered p.mergedSequence.toIidSequence →
      Sequence.ThreadOrdered l.mergedSequence.toIidSequence →
      (∀ s ∈ [p.mergedSequence, l.mergedSequence], ∀ e ∈ s, e.isRead ∨ e.isWrite) →
      p.vaIsWeaklyEquivalent l → Extends c m p l ∧ Extends c m l p := by
  constructor
  · intro h
    have hext := h heapStore (fun _ => 0) (ofReplay heapStore [⟨1, 0⟩])
      (ofReplay heapStore [⟨0, 0⟩, ⟨0, 1⟩, ⟨1, 0⟩]) (by decide +kernel) (by decide +kernel)
      (by decide +kernel) (by decide +kernel) (by decide +kernel) (by decide +kernel)
    have hread := hext.1.other { heapStore.getEvent ⟨0, 1⟩ with value := 0 }
      (by decide +kernel) (by decide +kernel)
    exact absurd hread (by decide +kernel)
  · intro h
    have hext := h incrementLoadStore (fun _ => 0) (ofReplay incrementLoadStore [⟨2, 0⟩])
      (ofReplay incrementLoadStore [⟨0, 1⟩, ⟨1, 0⟩, ⟨2, 0⟩]) (by decide +kernel)
      (by decide +kernel) (by decide +kernel) (by decide +kernel) (by decide +kernel)
      (by decide +kernel)
    have hread := hext.1.other { incrementLoadStore.getEvent ⟨1, 0⟩ with value := 1 }
      (by decide +kernel) (by decide +kernel)
    exact absurd hread (by decide +kernel)

end Lead

end ViEqui
