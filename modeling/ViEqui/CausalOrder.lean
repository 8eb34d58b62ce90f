import ViEqui.Replay
import ViEqui.Sequence

/-!
# Sources and the causal order

* `source c s r`: the latest earlier write of the object of `r` in `s`, from
  which `r` reads.
* `threadPred s e`: the event of the thread of `e` before `e`.
* `ThreadOrdered s`: each thread's events stand in the order of their
  indices.
* `mem_getCausalOrder`: the edges of `get_causal_order` are those of
  `threadPred` and `source`.
* `source_of_coSanity`: what `co_sanity` says of the source of a read.  One
  set holds the edges of both kinds, so it does not say that each read keeps
  its source.
-/

namespace ViEqui

open AssocMap Precedence

namespace Sequence

variable {c : Container}

/-! ## Sources -/

/-- The latest earlier write of the object of `r`, for an event `r` of
`s`. -/
def source (c : Container) (s : Sequence) (r : IID) : Option IID :=
  if r ∈ s then
    latestBefore (· = r) (fun w => (c.getEvent w).writesTo (c.getEvent r)) s
  else none

/-- The latest earlier event of the thread of `e`, for an event `e` of
`s`. -/
def threadPred (s : Sequence) (e : IID) : Option IID :=
  if e ∈ s then latestBefore (· = e) (fun x => x.pid = e.pid) s else none

/-- Each thread's events stand in the order of their indices. -/
def ThreadOrdered (s : Sequence) : Prop :=
  ∀ a b, Precedes s a b → a.pid = b.pid → a.idx < b.idx

instance (s : Sequence) : Decidable (ThreadOrdered s) :=
  decidable_of_iff (s.Pairwise fun a b => a.pid = b.pid → a.idx < b.idx)
    ⟨fun h _ _ hab => List.pairwise_iff_forall_sublist.mp h hab,
      fun h => List.pairwise_iff_forall_sublist.mpr fun {a b} hab => h a b hab⟩

theorem mem_of_source {s : Sequence} {r w : IID} (h : source c s r = some w) :
    r ∈ s := by
  by_contra hr
  rw [source, if_neg hr] at h
  cases h

theorem writesTo_of_source {s : Sequence} {r w : IID}
    (h : source c s r = some w) : (c.getEvent w).writesTo (c.getEvent r) := by
  rw [source, if_pos (mem_of_source h)] at h
  have hw := of_latestBefore h
  exact hw

theorem pid_of_threadPred {s : Sequence} {e x : IID} (h : threadPred s e = some x) :
    x.pid = e.pid := by
  rw [threadPred] at h
  split at h
  · simpa using of_latestBefore h
  · cases h

/-- A source of the own thread is the event before the read, if that one
writes the object. -/
theorem source_eq_threadPred {s : Sequence} {r w x : IID}
    (hsrc : source c s r = some w) (hpred : threadPred s r = some x)
    (hown : w.pid = r.pid) (hx : (c.getEvent x).writesTo (c.getEvent r)) :
    w = x := by
  rw [source, if_pos (mem_of_source hsrc)] at hsrc
  rw [threadPred] at hpred
  split at hpred
  · exact latestBefore_unique hsrc hpred (by simpa using hown) hx
  · cases hpred

theorem source_append {P Q : Sequence} {r : IID} (hr : r ∉ P) :
    source c (P ++ r :: Q) r =
      latest (fun w => (c.getEvent w).writesTo (c.getEvent r)) P := by
  rw [source, if_pos (by simp)]
  exact latestBefore_append (fun y hy => by simpa using ne_of_mem_of_not_mem hy hr) (by simp)

theorem threadPred_append {P Q : Sequence} {e : IID} (he : e ∉ P) :
    threadPred (P ++ e :: Q) e = latest (fun x => x.pid = e.pid) P := by
  rw [threadPred, if_pos (by simp)]
  exact latestBefore_append (fun y hy => by simpa using ne_of_mem_of_not_mem hy he) (by simp)

/-- An earlier write of the object means that there is a source. -/
theorem source_isSome_of_threadPred {s : Sequence} {r x : IID}
    (hpred : threadPred s r = some x)
    (hx : (c.getEvent x).writesTo (c.getEvent r)) : (source c s r).isSome := by
  rw [threadPred] at hpred
  split at hpred
  · next hr =>
    rw [source, if_pos hr, latestBefore, latest_isSome]
    exact ⟨x, mem_of_latest hpred, hx⟩
  · cases hpred

/-! ## The edges of the causal order -/

theorem mem_causalLoop {previous : Map Nat IID} {lastWrite : Map Object IID}
    {s : Sequence} {x y : IID} :
    (x, y) ∈ causalLoop c previous lastWrite s ↔
      ∃ P Q, s = P ++ y :: Q ∧
        ((latest (fun e => e.pid = y.pid) P).or (find? previous y.pid) = some x ∨
          (c.getEvent y).isRead ∧
            (latest (fun w => (c.getEvent w).writesTo (c.getEvent y)) P).or
              (find? lastWrite (c.getEvent y).object) = some x) := by
  induction s generalizing previous lastWrite with
  | nil => simp [causalLoop]
  | cons e s ih =>
    rw [exists_split_cons, causalLoop, List.mem_append, ih]
    refine or_congr ?_ ?_
    · -- the edges into `e`
      have hedge : ∀ o : Option IID,
          (x, y) ∈ (o.map (fun w => (w, e))).toList ↔ e = y ∧ o = some x := by
        intro o
        cases o with
        | none => simp
        | some w =>
          simp only [Option.map_some, Option.toList_some, List.mem_singleton,
            Prod.mk.injEq, Option.some.injEq]
          tauto
      simp only [latest, List.reverse_nil, List.find?_nil, Option.none_or]
      by_cases hread : (c.getEvent e).isRead
      · rw [if_pos hread, List.mem_append, hedge, hedge, ← and_or_left]
        refine and_congr_right fun h => ?_
        subst h
        simp [hread]
      · rw [if_neg hread, List.append_nil, hedge]
        refine and_congr_right fun h => ?_
        subst h
        simp [hread]
    · have hlast : ∀ P, (latest (fun x => decide (x.pid = y.pid)) (e :: P)).or
            (find? previous y.pid) =
          (latest (fun x => decide (x.pid = y.pid)) P).or
            (find? (insert previous e.pid e) y.pid) := by
        intro P
        rw [latest_cons_or, find?_insert]
        simp only [decide_eq_true_eq]
      have hwrite : ∀ P, (latest (fun w => (c.getEvent w).writesTo (c.getEvent y))
              (e :: P)).or (find? lastWrite (c.getEvent y).object) =
          (latest (fun w => (c.getEvent w).writesTo (c.getEvent y)) P).or
            (find? (if (c.getEvent e).isWrite then
              insert lastWrite (c.getEvent e).object e else lastWrite)
                (c.getEvent y).object) := by
        intro P
        rw [latest_cons_or]
        congr 1
        by_cases hw : (c.getEvent e).isWrite
        · simp [hw, find?_insert, Event.writesTo_iff]
        · simp [hw, Event.writesTo_iff]
      simp only [hlast, hwrite]

/-- An edge leads to an event from its predecessor in the thread, and to a
read also from its source. -/
theorem mem_getCausalOrder {s : Sequence} (hnodup : s.Nodup) {x y : IID} :
    (x, y) ∈ getCausalOrder c s ↔
      threadPred s y = some x ∨
        (c.getEvent y).isRead ∧ source c s y = some x := by
  rw [getCausalOrder, mem_causalLoop]
  simp only [find?_nil, Option.or_none]
  by_cases hy : y ∈ s
  · obtain ⟨P, Q, rfl⟩ := List.append_of_mem hy
    have hyP : y ∉ P := fun h =>
      (List.nodup_append.mp hnodup).2.2 y h y (by simp) rfl
    have hyQ : y ∉ Q := (List.nodup_cons.mp hnodup.of_append_right).1
    rw [threadPred_append hyP, source_append hyP]
    constructor
    · rintro ⟨P', Q', heq, hedge⟩
      have hP : P = P' := ((List.append_cons_inj_of_notMem hyP hyQ).mp heq).1
      rw [hP]
      exact hedge
    · intro hedge
      exact ⟨P, Q, rfl, hedge⟩
  · rw [threadPred, if_neg hy, source, if_neg hy]
    constructor
    · rintro ⟨P, Q, rfl, _⟩
      exact absurd (by simp) hy
    · rintro (h | ⟨_, h⟩) <;> cases h

theorem precedes_of_edge {s : Sequence} {x y : IID}
    (h : (x, y) ∈ getCausalOrder c s) : Precedes s x y := by
  obtain ⟨P, Q, rfl, hedge⟩ := mem_causalLoop.mp h
  simp only [find?_nil, Option.or_none] at hedge
  rcases hedge with hpred | ⟨_, hsrc⟩
  · exact precedes_append_cons (mem_of_latest hpred)
  · exact precedes_append_cons (mem_of_latest hsrc)

theorem coSanity_iff {s s1 s2 : Sequence} :
    coSanity c s s1 s2 ↔ s ≠ [] ∧ ∀ e, e ∈ getCausalOrder c s ↔
      e ∈ getCausalOrder c s1 ∨ e ∈ getCausalOrder c s2 := by
  simp only [coSanity, Bool.and_eq_true, List.all_eq_true, decide_eq_true_eq,
    Bool.or_eq_true, and_assoc, ne_eq]
  refine and_congr_right fun _ => ?_
  constructor
  · rintro ⟨h1, h2, h⟩ e
    exact ⟨h e, fun he => he.elim (h1 e) (h2 e)⟩
  · intro h
    exact ⟨fun e he => (h e).mpr (.inl he), fun e he => (h e).mpr (.inr he),
      fun e he => (h e).mp he⟩

/-! ## The source of a read in a merge -/

/-- The source that a merge of `s1` and `s2` gives to `r`.  If they have two,
one of them is the event before the read in its own thread, which then counts
as the edge of program order, and the other one is the source. -/
def mergedSource (c : Container) (s1 s2 : Sequence) (r : IID) : Option IID :=
  match source c s1 r, source c s2 r with
  | none, w2 => w2
  | some w1, none => some w1
  | some w1, some w2 => if w1.pid = r.pid then some w2 else some w1

/-- A source of the merge, reached by an edge of one of its parts, is the
source in that part. -/
theorem source_of_edge {s s1 : Sequence} {r w : IID} (hnodup : s.Nodup)
    (hnodup1 : s1.Nodup) (hread : (c.getEvent r).isRead)
    (hsub : ∀ e ∈ getCausalOrder c s1, e ∈ getCausalOrder c s)
    (hw : source c s r = some w) (hedge : (w, r) ∈ getCausalOrder c s1) :
    source c s1 r = some w := by
  rcases (mem_getCausalOrder hnodup1).mp hedge with hpred | ⟨_, hsrc⟩
  · -- `w` is the event of the thread before `r`, and it writes the object
    have hsome := source_isSome_of_threadPred hpred (writesTo_of_source hw)
    obtain ⟨v, hv⟩ := Option.isSome_iff_exists.mp hsome
    have hown := pid_of_threadPred hpred
    have hvr : (v, r) ∈ getCausalOrder c s :=
      hsub _ ((mem_getCausalOrder hnodup1).mpr (.inr ⟨hread, hv⟩))
    rcases (mem_getCausalOrder hnodup).mp hvr with hv' | ⟨_, hv'⟩
    · have hvw := source_eq_threadPred hv hpred (pid_of_threadPred hv')
        (writesTo_of_source hw)
      rw [hv, hvw]
    · rw [hv, ← hv', hw]
  · exact hsrc

/-- The source in a part of the merge is the source in the merge, or the event
of the thread before the read. -/
theorem source_or_threadPred {s s1 : Sequence} {r v : IID} (hnodup : s.Nodup)
    (hnodup1 : s1.Nodup) (hread : (c.getEvent r).isRead)
    (hsub : ∀ e ∈ getCausalOrder c s1, e ∈ getCausalOrder c s)
    (hv : source c s1 r = some v) :
    threadPred s r = some v ∨ source c s r = some v := by
  have hvr := hsub (v, r) ((mem_getCausalOrder hnodup1).mpr (.inr ⟨hread, hv⟩))
  exact ((mem_getCausalOrder hnodup).mp hvr).imp_right fun h => h.2

/-- What the check at the end of a merge says of the source of a read. -/
theorem source_of_coSanity {s s1 s2 : Sequence} {r : IID} (hnodup : s.Nodup)
    (hnodup1 : s1.Nodup) (hnodup2 : s2.Nodup) (hread : (c.getEvent r).isRead)
    (hco : coSanity c s s1 s2) : source c s r = mergedSource c s1 s2 r := by
  have hedges := (coSanity_iff.mp hco).2
  have hsub1 := fun e he => (hedges e).mpr (.inl he)
  have hsub2 := fun e he => (hedges e).mpr (.inr he)
  cases hw : source c s r with
  | none =>
    -- a source in a part would be the event before the read
    have hnone : ∀ s', s'.Nodup →
        (∀ e ∈ getCausalOrder c s', e ∈ getCausalOrder c s) →
        source c s' r = none := by
      intro s' hnodup' hsub
      cases hv : source c s' r with
      | none => rfl
      | some v =>
        rcases source_or_threadPred hnodup hnodup' hread hsub hv with hpred | hsrc
        · have := source_isSome_of_threadPred hpred (writesTo_of_source hv)
          rw [hw] at this
          cases this
        · rw [hw] at hsrc
          cases hsrc
    rw [mergedSource, hnone s1 hnodup1 hsub1, hnone s2 hnodup2 hsub2]
  | some w =>
    have hedge := (hedges (w, r)).mp ((mem_getCausalOrder hnodup).mpr (.inr ⟨hread, hw⟩))
    rcases hedge with hedge | hedge
    · have hw1 := source_of_edge hnodup hnodup1 hread hsub1 hw hedge
      cases hv : source c s2 r with
      | none => rw [mergedSource, hw1, hv]
      | some v =>
        rw [mergedSource, hw1, hv]
        by_cases hown : w.pid = r.pid
        · rcases source_or_threadPred hnodup hnodup2 hread hsub2 hv with hpred | hsrc
          · have := source_eq_threadPred hw hpred hown (writesTo_of_source hv)
            simp [this]
          · rw [hw] at hsrc
            simp [hown, hsrc]
        · simp [hown]
    · have hw2 := source_of_edge hnodup hnodup2 hread hsub2 hw hedge
      cases hv : source c s1 r with
      | none => rw [mergedSource, hv, hw2]
      | some v =>
        rw [mergedSource, hv, hw2]
        by_cases hown : v.pid = r.pid
        · simp [hown]
        · rcases source_or_threadPred hnodup hnodup1 hread hsub1 hv with hpred | hsrc
          · exact absurd (pid_of_threadPred hpred) hown
          · rw [hw] at hsrc
            simp [hown, hsrc]

/-! ## Program order -/

/-- Edges that respect program order make a sequence that does. -/
theorem threadOrdered_of_edges {s : Sequence} (hnodup : s.Nodup)
    (h : ∀ x y, threadPred s y = some x → x.idx < y.idx) : ThreadOrdered s := by
  induction s using List.reverseRecOn with
  | nil => exact fun a b hab => absurd hab.mem_left (by simp)
  | append_singleton s e ih =>
    have hs : s.Nodup := hnodup.of_append_left
    have he : e ∉ s := fun hmem =>
      (List.nodup_append.mp hnodup).2.2 e hmem e (by simp) rfl
    have hord : ThreadOrdered s := by
      refine ih hs fun x y hpred => h x y ?_
      have hy : y ∈ s := by
        by_contra hy
        rw [threadPred, if_neg hy] at hpred
        cases hpred
      obtain ⟨P, Q, rfl⟩ := List.append_of_mem hy
      have hyP : y ∉ P := fun hmem =>
        (List.nodup_append.mp hs).2.2 y hmem y (by simp) rfl
      rw [threadPred_append hyP] at hpred
      rw [List.append_assoc, List.cons_append, threadPred_append hyP, hpred]
    intro a b hab hpid
    by_cases hb : b ∈ s
    · obtain ⟨P, Q, rfl⟩ := List.append_of_mem hb
      rw [List.append_assoc, List.cons_append] at hab hnodup
      have haP := (precedes_iff_mem hnodup).mp hab
      exact hord a b ((precedes_iff_mem hs).mpr haP) hpid
    · have hbe : b = e := by simpa [hb] using hab.mem_right
      subst hbe
      have ha : a ∈ s := (precedes_iff_mem hnodup).mp hab
      -- the latest event of the thread in `s` is `a` or behind it
      have hsome : (latest (fun x => decide (x.pid = b.pid)) s).isSome :=
        latest_isSome.mpr ⟨a, ha, by simpa using hpid⟩
      obtain ⟨x, hx⟩ := Option.isSome_iff_exists.mp hsome
      have hxb : x.idx < b.idx := h x b (by rw [threadPred_append he, hx])
      obtain ⟨hxpid, P, Q, rfl, hQ⟩ := latest_eq_some_iff.mp hx
      have hxpid : x.pid = b.pid := by simpa using hxpid
      rcases List.mem_append.mp ha with haP | haQ
      · have hax := hord a x (precedes_append_cons haP) (hpid.trans hxpid.symm)
        omega
      · rcases List.mem_cons.mp haQ with rfl | haQ
        · exact hxb
        · have := hQ a haQ
          simp [hpid] at this

/-- A merge of thread-ordered sequences that passes the check is
thread-ordered. -/
theorem threadOrdered_of_coSanity {s s1 s2 : Sequence} (hnodup : s.Nodup)
    (h1 : ThreadOrdered s1) (h2 : ThreadOrdered s2) (hco : coSanity c s s1 s2) :
    ThreadOrdered s := by
  refine threadOrdered_of_edges hnodup fun x y hpred => ?_
  have hpid := pid_of_threadPred hpred
  have hedge := ((coSanity_iff.mp hco).2 (x, y)).mp
    ((mem_getCausalOrder hnodup).mpr (.inl hpred))
  rcases hedge with hedge | hedge
  · exact h1 x y (precedes_of_edge hedge) hpid
  · exact h2 x y (precedes_of_edge hedge) hpid

end Sequence

end ViEqui
