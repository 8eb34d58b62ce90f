import ViEqui.Backseq
import ViEqui.Lib.Paired
import ViEqui.Merge

/-!
# Atomicity of rmws in sequences

An rmw is two events, a read and a write, and `to_event_sequence` takes the
event before an rmw write for its read.  `RmwAtomic` says that it is.

* `rmwAtomic_viewAdjust_iff`: `view_adjust`.
* `rmwAtomic_addRmwWrite_iff`: `add_rmw_write`.
* `rmwAtomic_join`: `consistent_merge`, behind the view adjustment.
* `rmwAtomic_backseq_iff`: `backseq`.
-/

namespace ViEqui

open Shift Precedence Adjacency

namespace Container

/-- `e` is the write of an rmw. -/
def isRmwWrite (c : Container) (e : IID) : Bool :=
  (c.getEvent e).isWrite && (c.getEvent e).isRmw

/-- `r` is the read of the rmw with the write `w`. -/
def isOwnRmwRead (c : Container) (r w : IID) : Bool :=
  (c.getEvent r).isRead && (c.getEvent r).isRmw && r.pid = w.pid && r.idx + 1 = w.idx

theorem isOwnRmwRead_iff {c : Container} {r w : IID} :
    c.isOwnRmwRead r w ↔ (c.getEvent r).isRead ∧ (c.getEvent r).isRmw ∧
      r.pid = w.pid ∧ r.idx + 1 = w.idx := by
  simp [isOwnRmwRead, and_assoc]

theorem isOwnRmwRead_unique {c : Container} {r r' w : IID}
    (h : c.isOwnRmwRead r w) (h' : c.isOwnRmwRead r' w) : r = r' := by
  obtain ⟨_, _, hpid, hidx⟩ := isOwnRmwRead_iff.mp h
  obtain ⟨_, _, hpid', hidx'⟩ := isOwnRmwRead_iff.mp h'
  cases r
  cases r'
  simp only [IID.mk.injEq] at *
  omega

theorem isOwnRmwRead_inj {c : Container} {r w w' : IID}
    (h : c.isOwnRmwRead r w) (h' : c.isOwnRmwRead r w') : w = w' := by
  obtain ⟨_, _, hpid, hidx⟩ := isOwnRmwRead_iff.mp h
  obtain ⟨_, _, hpid', hidx'⟩ := isOwnRmwRead_iff.mp h'
  cases w
  cases w'
  simp only [IID.mk.injEq] at *
  omega

end Container

namespace Sequence

variable {c : Container}

/-- `s`, behind the event `prev`, has every rmw write right behind its own rmw
read. -/
abbrev RmwAtomicAfter (c : Container) (prev : Option IID) (s : Sequence) : Prop :=
  Paired c.isRmwWrite c.isOwnRmwRead prev s

/-- Every rmw write stands right behind its own rmw read. -/
abbrev RmwAtomic (c : Container) (s : Sequence) : Prop := RmwAtomicAfter c none s

theorem rmwAtomicAfter_append {prev : Option IID} {P Q : Sequence} :
    RmwAtomicAfter c prev (P ++ Q) ↔
      RmwAtomicAfter c prev P ∧ RmwAtomicAfter c (P.getLast?.or prev) Q :=
  paired_append

theorem rmwAtomicAfter_insert {prev : Option IID} {P Q : Sequence} {e : IID} :
    RmwAtomicAfter c prev (P ++ e :: Q) ↔ RmwAtomicAfter c prev P ∧
      (c.isRmwWrite e → (P.getLast?.or prev).any (c.isOwnRmwRead · e)) ∧
        RmwAtomicAfter c (some e) Q :=
  paired_insert

/-- An rmw write is no rmw read. -/
theorem not_isOwnRmwRead_of_isRmwWrite {r w : IID} (h : c.isRmwWrite r) :
    c.isOwnRmwRead r w = false := by
  rw [Bool.eq_false_iff]
  intro hown
  have hread := (Container.isOwnRmwRead_iff.mp hown).1
  simp only [Container.isRmwWrite, Bool.and_eq_true] at h
  rw [Event.isRead_eq_false_of_isWrite h.1] at hread
  cases hread

/-! ## View adjustment -/

/-- `view_adjust(e1, e2)` does not separate the halves of an rmw: `e1` is no
rmw write, there is no rmw write right behind `e2`, and `e2` is no rmw write
of the same thread. -/
def AdjustKeepsRmw (c : Container) (s : Sequence) (e1 e2 : IID) : Prop :=
  s.idxOf e1 < s.idxOf e2 →
    c.isRmwWrite e1 = false ∧
      (∀ w ∈ s[s.idxOf e2 + 1]?, c.isRmwWrite w = false) ∧
        (c.isRmwWrite e2 → e2.pid ≠ e1.pid)

theorem rmwAtomic_viewAdjust_iff {s t : Sequence} {e1 e2 : IID} (hs : s.Nodup)
    (he2 : e2 ∈ s) (hatomic : RmwAtomic c s) (h : viewAdjust c s e1 e2 = some t) :
    RmwAtomic c t ↔ AdjustKeepsRmw c s e1 e2 := by
  by_cases hlt : s.idxOf e1 < s.idxOf e2
  · obtain ⟨P, M, Q, rfl, he1P, he2M⟩ := exists_between he2 hlt
    have hplace : (P ++ (e1 :: M ++ e2 :: Q)).idxOf e2 = (P ++ e1 :: M).length := by
      rw [← List.append_assoc]
      exact idxOf_append_cons he2M
    have hnext : (P ++ (e1 :: M ++ e2 :: Q))[(P ++ e1 :: M).length + 1]? = Q.head? := by
      rw [← List.append_assoc]
      exact getElem?_behind _ Q e2
    rw [viewAdjust_append he1P he2M] at h
    split at h
    · cases h
    · split at h
      · cases h
        rw [AdjustKeepsRmw, hplace, hnext]
        have hmine : (fun e : IID => decide (e.pid = e1.pid)) e1 := by simp
        have hthread : ∀ r w, c.isOwnRmwRead r w →
            decide (r.pid = e1.pid) = decide (w.pid = e1.pid) := fun r w hrw => by
          rw [(Container.isOwnRmwRead_iff.mp hrw).2.2.1]
        have hunique : ∀ r r' w, c.isOwnRmwRead r w → c.isOwnRmwRead r' w → r = r' :=
          fun r r' w => Container.isOwnRmwRead_unique
        refine (paired_behind_iff hthread hunique hs hmine hatomic).trans ?_
        rw [hplace] at hlt
        simp only [decide_eq_false_iff_not]
        exact ⟨fun hkeeps _ => hkeeps, fun hkeeps => hkeeps hlt⟩
      · cases h
  · have hzero : s.idxOf e2 - s.idxOf e1 = 0 := by omega
    rw [viewAdjust] at h
    split at h
    · cases h
    · dsimp only at h
      rw [hzero, shiftBehind] at h
      cases h
      exact iff_of_true hatomic fun hlt' => absurd hlt' hlt

/-! ## Completion of an rmw -/

theorem insertAfter_append {p : IID → Bool} {P Q : Sequence} {r w : IID}
    (hr : p r) (hP : ∀ a ∈ P, p a = false) :
    insertAfter p w (P ++ r :: Q) = P ++ r :: w :: Q := by
  induction P with
  | nil => simp [insertAfter, hr]
  | cons a P ih =>
    rw [List.cons_append, insertAfter, if_neg (by simp [hP a]),
      ih fun b hb => hP b (List.mem_cons_of_mem a hb)]
    rfl

theorem insertAfter_of_forall {p : IID → Bool} {s : Sequence} {w : IID}
    (h : ∀ a ∈ s, p a = false) : insertAfter p w s = s := by
  induction s with
  | nil => rfl
  | cons a s ih =>
    rw [insertAfter, if_neg (by simp [h a]),
      ih fun b hb => h b (List.mem_cons_of_mem a hb)]

/-- `add_rmw_write` keeps rmws together exactly if the write is not there
already. -/
theorem rmwAtomic_addRmwWrite_iff {s : Sequence} {r w : IID}
    (hw : c.isRmwWrite w) (hown : c.isOwnRmwRead r w) (hatomic : RmwAtomic c s) :
    RmwAtomic c (s.addRmwWrite r w) ↔ s[s.idxOf r + 1]? ≠ some w := by
  by_cases hr : r ∈ s
  · obtain ⟨P, Q, rfl, hrP⟩ := List.eq_append_cons_of_mem hr
    have hadd : addRmwWrite (P ++ r :: Q) r w = P ++ r :: w :: Q :=
      insertAfter_append (by simp) fun a ha => by
        simpa using ne_of_mem_of_not_mem ha hrP
    obtain ⟨hP, hneeds, hQ⟩ := paired_insert.mp hatomic
    rw [hadd, idxOf_append_cons hrP, getElem?_behind]
    constructor
    · intro h hhead
      obtain ⟨Q', rfl⟩ := List.head?_eq_some_iff.mp hhead
      -- the second copy of the write would stand behind the first
      have hsecond := ((paired_insert.mp h).2.2).2.1 hw
      rw [Option.any_some, not_isOwnRmwRead_of_isRmwWrite hw] at hsecond
      cases hsecond
    · intro hne
      refine paired_insert.mpr ⟨hP, hneeds, fun _ => by simpa using hown, ?_⟩
      refine hQ.of_head ?_
      -- an rmw write behind the read would be this one
      intro w' hw'
      rw [Bool.eq_false_iff]
      intro hneeds'
      obtain ⟨Q', rfl⟩ := List.head?_eq_some_iff.mp hw'
      have hown' := hQ.1 hneeds'
      rw [Option.any_some] at hown'
      exact hne (by rw [Container.isOwnRmwRead_inj hown' hown]; rfl)
  · have hadd : s.addRmwWrite r w = s :=
      insertAfter_of_forall fun a ha => by simpa using ne_of_mem_of_not_mem ha hr
    have hend : s[s.idxOf r + 1]? = none := by
      rw [List.idxOf_eq_length hr]
      simp
    rw [hadd, hend]
    simp [hatomic]

/-! ## The merge -/

/-- `join_prefix` takes `p` before `eo`. -/
def comesBefore (c : Container) (p eo : IID) : Bool :=
  ((c.getEvent eo).isWrite && (c.getEvent eo).rwPair (c.getEvent p)) || c.ordered p eo

/-- Where an rmw event that comes before an event of `other` has the read of
another rmw right behind it, something from the write of that rmw on comes
before that event too.  `join_prefix` takes along the event behind an rmw
event, and would leave the write. -/
def RmwAlone (c : Container) (seg other : Sequence) : Prop :=
  ∀ P p z w Q, seg = P ++ p :: z :: w :: Q → (c.getEvent p).isRmw →
    c.isRmwWrite w → ∀ eo ∈ other, comesBefore c p eo →
      ∃ q ∈ w :: Q, comesBefore c q eo

theorem RmwAlone.mono {seg seg' other other' : Sequence} (h : RmwAlone c seg other)
    (hseg : seg'.IsSuffix seg) (hother : other' ⊆ other) : RmwAlone c seg' other' := by
  rintro P p z w Q rfl hp hw eo heo
  obtain ⟨F, rfl⟩ := hseg
  exact h (F ++ P) p z w Q (by simp) hp hw eo (hother heo)

/-- `join_prefix` cuts the primary events where no rmw write follows. -/
theorem pullPrimary_spec {prev : Option IID} {eo : IID} {rest : Sequence}
    {later pending primary merged merged' : Sequence}
    (h : pullPrimary c eo later pending primary merged = some (merged', rest))
    (hatomic : RmwAtomicAfter c prev (pending ++ primary))
    (hhead : ∀ w ∈ (pending ++ primary).head?, c.isRmwWrite w →
      ∃ q ∈ primary, comesBefore c q eo)
    (halone : RmwAlone c (pending ++ primary) [eo]) :
    ∃ X, pending ++ primary = X ++ rest ∧ merged' = merged ++ X ∧
      RmwAtomic c rest := by
  fun_induction pullPrimary c eo later pending primary merged generalizing prev with
  | case1 pending merged =>
    cases h
    rw [List.append_nil] at hatomic hhead
    refine ⟨[], by simp, by simp, hatomic.of_head fun w hw => ?_⟩
    rw [Bool.eq_false_iff]
    intro hneeds
    obtain ⟨q, hq, _⟩ := hhead w hw hneeds
    cases hq
  | case2 => cases h
  | case3 => cases h
  | case4 =>
    cases h
    exact ⟨_, (List.append_nil _).symm, by simp, trivial⟩
  | case5 =>
    rename_i pending p merged evo evp hbefore hnot hnot' hrmw w rest' ih
    obtain ⟨_, _, _, hrest⟩ := by
      simpa only [paired_insert, Paired] using hatomic
    -- the write of another rmw behind `w` is pulled in the next round
    have hhead' : ∀ w' ∈ ([] ++ rest').head?, c.isRmwWrite w' →
        ∃ q ∈ rest', comesBefore c q eo := by
      intro w' hw' hneeds
      obtain ⟨tail, rfl⟩ := List.head?_eq_some_iff.mp hw'
      exact halone pending p w w' tail rfl hrmw hneeds eo (by simp) hbefore
    obtain ⟨X, hX, hmerged, hrest'⟩ := ih h hrest hhead'
      (halone.mono ⟨pending ++ [p, w], by simp⟩ (List.Subset.refl _))
    rw [List.nil_append] at hX
    exact ⟨pending ++ [p, w] ++ X, by simp [hX], by simp [hmerged], hrest'⟩
  | case6 =>
    rename_i pending p rest' merged evo evp hbefore hnot hnot' hrmw ih
    obtain ⟨_, _, hrest⟩ := paired_insert.mp hatomic
    -- the event behind `p` does not have its read there
    have hhead' : ∀ w ∈ rest'.head?, c.isRmwWrite w = false := by
      refine hrest.head fun r hr w hw => ?_
      cases hr
      rw [Bool.eq_false_iff]
      intro hown
      exact hrmw (Container.isOwnRmwRead_iff.mp hown).2.1
    obtain ⟨X, hX, hmerged, hrest'⟩ := ih h hrest
      (fun w hw hneeds => absurd hneeds (by simp [hhead' w hw]))
      (halone.mono ⟨pending ++ [p], by simp⟩ (List.Subset.refl _))
    rw [List.nil_append] at hX
    exact ⟨pending ++ [p] ++ X, by simp [hX], by simp [hmerged], hrest'⟩
  | case7 =>
    rename_i pending p rest' merged evo evp hbefore ih
    have happ : pending ++ [p] ++ rest' = pending ++ p :: rest' := by simp
    rw [← happ] at hatomic hhead halone ⊢
    refine ih h hatomic (fun w hw hneeds => ?_) halone
    obtain ⟨q, hq, hqeo⟩ := hhead w hw hneeds
    rcases List.mem_cons.mp hq with rfl | hq
    · exact absurd hqeo hbefore
    · exact ⟨q, hq, hqeo⟩

/-- The read of an rmw is put last, so that its write can follow. -/
theorem bringRmwRead_spec {r eo : IID} {merged merged' : Sequence}
    (h : bringRmwRead c (some r) merged = some merged') (hown : c.isOwnRmwRead r eo)
    (hr : r ∈ merged) (heo : eo ∉ merged) (hatomic : RmwAtomic c merged) :
    RmwAtomic c merged' ∧ merged'.getLast? = some r := by
  have hnotwrite : c.isRmwWrite r = false := by
    rw [Bool.eq_false_iff]
    intro hw
    rw [not_isOwnRmwRead_of_isRmwWrite hw] at hown
    cases hown
  have hmove : RmwAtomic c (merged.erase r ++ [r]) ∧
      (merged.erase r ++ [r]).getLast? = some r := by
    refine ⟨paired_insert.mpr ⟨?_, fun h => ?_, trivial⟩, by simp⟩
    · refine hatomic.erase fun w hw => ?_
      rw [Bool.eq_false_iff]
      intro hown'
      exact heo (Container.isOwnRmwRead_inj hown hown' ▸ hw)
    · rw [hnotwrite] at h
      cases h
  rw [bringRmwRead] at h
  split at h
  · next hlast =>
    cases h
    refine ⟨hatomic, ?_⟩
    have hbehind := hlast.resolve_left (by simpa using hr)
    obtain ⟨P, Q, rfl, hrP⟩ := List.eq_append_cons_of_mem hr
    have hdrop : (P ++ r :: Q).dropWhile (· ≠ r) = r :: Q := by
      rw [List.dropWhile_append_of_pos fun a ha => by
        simpa using ne_of_mem_of_not_mem ha hrP]
      simp
    rw [hdrop, List.tail_cons] at hbehind
    simp [hbehind]
  · dsimp only at h
    split at h
    · split at h
      · cases h
      · cases h
        exact hmove
    · cases h
      exact hmove

/-- A join of two segments keeps rmws together. -/
theorem rmwAtomic_joinLoop {prev : Option IID} {primary other merged : Sequence}
    (hnodup : (merged ++ primary ++ other).Nodup) (hprev : ∀ r ∈ prev, r ∈ merged)
    (hmerged : RmwAtomic c (merged ++ primary)) (hother : RmwAtomicAfter c prev other)
    (hhead : ∀ w ∈ primary.head?, c.isRmwWrite w → ∀ eo ∈ other.head?,
      ∃ q ∈ primary, comesBefore c q eo)
    (halone : RmwAlone c primary other) :
    RmwAtomic c (joinLoop c prev primary other merged) := by
  induction other generalizing prev primary merged with
  | nil => exact hmerged
  | cons eo later ih =>
    rw [joinLoop]
    cases hpull : pullPrimary c eo later [] primary merged with
    | none => trivial
    | some p =>
      obtain ⟨merged', rest⟩ := p
      obtain ⟨X, hX, rfl, hrest⟩ := pullPrimary_spec hpull (rmwAtomicAfter_append.mp hmerged).2
        (fun w hw hneeds => hhead w hw hneeds eo rfl)
        (halone.mono (List.suffix_refl _) (by simp))
      rw [List.nil_append] at hX
      subst hX
      have hpulled : RmwAtomic c (merged ++ X) := by
        rw [← List.append_assoc] at hmerged
        exact (rmwAtomicAfter_append.mp hmerged).1
      have heo : eo ∉ merged ++ X := by
        intro hmem
        rw [← List.append_assoc, List.append_assoc] at hnodup
        exact (List.nodup_append.mp hnodup).2.2 eo hmem eo (by simp) rfl
      -- the loop goes on behind `eo`, whatever the order before it
      have hloop : ∀ merged'' : Sequence, merged''.Perm (merged ++ X) →
          RmwAtomic c (merged'' ++ [eo]) →
          RmwAtomic c (joinLoop c (some eo) rest later (merged'' ++ [eo])) := by
        intro merged'' hperm hatomic
        have hnohead : ∀ w ∈ rest.head?, c.isRmwWrite w = false := hrest.head (by simp)
        refine ih ?_ (by simp) (rmwAtomicAfter_append.mpr ⟨hatomic, hrest.of_none⟩) hother.2
          (fun w hw hneeds => absurd hneeds (by simp [hnohead w hw]))
          (halone.mono ⟨X, rfl⟩ (List.subset_cons_self _ _))
        refine (List.Perm.nodup_iff ?_).mp hnodup
        refine List.perm_iff_count.mpr fun x => ?_
        have hx := hperm.count_eq x
        simp only [List.count_append, List.count_cons, List.count_nil] at hx ⊢
        omega
      dsimp only
      split
      · next hwrite =>
        cases hbring : bringRmwRead c prev (merged ++ X) with
        | none => trivial
        | some merged'' =>
          obtain ⟨r, hr, hown⟩ := (Option.any_eq_true _ _).mp (hother.1 hwrite)
          subst hr
          obtain ⟨hatomic, hlast⟩ := bringRmwRead_spec hbring hown
            (List.mem_append_left X (hprev r rfl)) heo hpulled
          refine hloop merged'' (bringRmwRead_perm hbring) ?_
          refine paired_insert.mpr ⟨hatomic, fun _ => ?_, trivial⟩
          rw [hlast]
          exact hown
      · next hnot =>
        refine hloop _ (.refl _) (paired_insert.mpr ⟨hpulled, fun h => ?_, trivial⟩)
        exact absurd h hnot

theorem rmwAtomic_joinPrefix {primary other merged : Sequence}
    (hnodup : (merged ++ primary ++ other).Nodup)
    (hmerged : RmwAtomic c (merged ++ primary))
    (hother : RmwAtomicAfter c merged.getLast? other)
    (hhead : ∀ w ∈ primary.head?, c.isRmwWrite w → ∀ eo ∈ other.head?,
      ∃ q ∈ primary, comesBefore c q eo)
    (halone : RmwAlone c primary other) :
    RmwAtomic c (joinPrefix c merged primary merged.getLast? other) := by
  rw [joinPrefix]
  split
  · next hprimary =>
    rw [hprimary, List.append_nil] at hmerged
    exact paired_append.mpr ⟨hmerged, by rwa [Option.or_none]⟩
  · split
    · exact hmerged
    · exact rmwAtomic_joinLoop hnodup (fun r hr => List.mem_of_getLast? hr) hmerged
        hother hhead halone

/-! The join goes from one common event to the next one. -/

/-- The events of `s` behind `g`. -/
def after : Option IID → Sequence → Sequence
  | none, s => s
  | some g, s => (s.dropWhile (· ≠ g)).tail

/-- The events of `s` behind the common event `g`, up to the next event of
`other`. -/
def gap (g : Option IID) (s other : Sequence) : Sequence :=
  (after g s).takeWhile (· ∉ other)

/-- What keeps rmws together in a join: between two common events, whatever is
merged in between the halves of an rmw of `s` has to come behind the whole
rmw. -/
structure JoinKeepsRmw (c : Container) (s other : Sequence) : Prop where
  head : ∀ g, ∀ w ∈ (gap g s other).head?, c.isRmwWrite w →
    ∀ eo ∈ (gap g other s).head?, ∃ q ∈ gap g s other, comesBefore c q eo
  alone : ∀ g, RmwAlone c (gap g s other) (gap g other s)

theorem after_suffix (g : Option IID) (s : Sequence) : (after g s).IsSuffix s := by
  cases g with
  | none => exact List.suffix_refl s
  | some g => exact (List.tail_suffix _).trans (List.dropWhile_suffix _)

theorem after_append {P Q : Sequence} {g : IID} (hg : g ∉ P) :
    after (some g) (P ++ g :: Q) = Q := by
  rw [after, List.dropWhile_append_of_pos fun a ha => by
    simpa using ne_of_mem_of_not_mem ha hg]
  simp

/-- Behind the next common event. -/
theorem after_next {g : Option IID} {s P Q : Sequence} {p : IID} (hs : s.Nodup)
    (h : after g s = P ++ p :: Q) : after (some p) s = Q := by
  obtain ⟨F, hF⟩ := after_suffix g s
  rw [h, ← List.append_assoc] at hF
  rw [← hF] at hs ⊢
  refine after_append fun hp => ?_
  exact (List.nodup_append.mp hs).2.2 p hp p (by simp) rfl

theorem gap_append {g : Option IID} {s other P Q : Sequence}
    (h : after g s = P ++ Q) (hP : ∀ a ∈ P, a ∉ other) (hQ : ∀ a ∈ Q.head?, a ∈ other) :
    gap g s other = P := by
  rw [gap, h, List.takeWhile_append_of_pos fun a ha => by simpa using hP a ha]
  cases Q with
  | nil => simp
  | cons q Q => simp [hQ q rfl]

/-- The read of a common rmw write is common too: it is the last common event,
with nothing behind it. -/
theorem common_read {other merged seg oseg : Sequence} {p : IID}
    (hnodup : (merged ++ seg ++ oseg).Nodup) (hseg : ∀ a ∈ seg, a ∉ other)
    (hoseg : oseg ⊆ other)
    (h : (seg.getLast?.or merged.getLast?).any (c.isOwnRmwRead · p))
    (h' : (oseg.getLast?.or merged.getLast?).any (c.isOwnRmwRead · p)) :
    seg = [] ∧ oseg = [] := by
  obtain ⟨r, hr, hown⟩ := (Option.any_eq_true _ _).mp h
  obtain ⟨r', hr', hown'⟩ := (Option.any_eq_true _ _).mp h'
  obtain rfl := Container.isOwnRmwRead_unique hown hown'
  obtain ⟨hms, _, hoseg'⟩ := List.nodup_append.mp hnodup
  have hmergedseg := (List.nodup_append.mp hms).2.2
  cases hlast : seg.getLast? with
  | some a =>
    rw [hlast] at hr
    cases hr
    have hrseg := List.mem_of_getLast? hlast
    cases holast : oseg.getLast? with
    | some b =>
      rw [holast] at hr'
      cases hr'
      exact absurd (hoseg (List.mem_of_getLast? holast)) (hseg r hrseg)
    | none =>
      rw [holast] at hr'
      exact absurd rfl (hmergedseg r (List.mem_of_getLast? hr') r hrseg)
  | none =>
    rw [hlast] at hr
    refine ⟨List.getLast?_eq_none_iff.mp hlast, List.getLast?_eq_none_iff.mp ?_⟩
    cases holast : oseg.getLast? with
    | none => rfl
    | some b =>
      rw [holast] at hr'
      cases hr'
      have hrmerged : r ∈ merged ++ seg := List.mem_append_left _ (List.mem_of_getLast? hr)
      exact absurd rfl (hoseg' r hrmerged r (List.mem_of_getLast? holast))

theorem rmwAtomic_joinCommon {s other primary seg rest merged : Sequence}
    (hsnodup : s.Nodup) (honodup : other.Nodup) (hkeeps : JoinKeepsRmw c s other)
    (hs : after merged.getLast? s = seg ++ primary)
    (ho : after merged.getLast? other = rest) (hseg : ∀ a ∈ seg, a ∉ other)
    (hrest : ∀ a ∈ rest, a ∈ s → a ∈ primary)
    (hsub : (primary.filter (· ∈ other)).Sublist rest)
    (hnodup : (merged ++ seg ++ primary.filter (· ∉ other) ++ rest).Nodup)
    (hmerged : RmwAtomic c merged)
    (hprimary : RmwAtomicAfter c merged.getLast? (seg ++ primary))
    (hother : RmwAtomicAfter c merged.getLast? rest) :
    RmwAtomic c (joinCommon c other primary seg merged.getLast? rest merged) := by
  induction primary generalizing seg rest merged with
  | nil =>
    rw [List.append_nil] at hs hprimary
    have hgap : gap merged.getLast? s other = seg :=
      gap_append (by rw [hs, List.append_nil]) hseg (by simp)
    have hgap' : gap merged.getLast? other s = rest := by
      refine gap_append (by rw [ho, List.append_nil]) (fun a ha has => ?_) (by simp)
      cases hrest a ha has
    rw [joinCommon]
    refine rmwAtomic_joinPrefix (by simpa using hnodup)
      (rmwAtomicAfter_append.mpr ⟨hmerged, by rwa [Option.or_none]⟩) hother ?_ ?_
    · have := hkeeps.head merged.getLast?
      rwa [hgap, hgap'] at this
    · have := hkeeps.alone merged.getLast?
      rwa [hgap, hgap'] at this
  | cons p primary ih =>
    rw [joinCommon]
    have hrestother : rest ⊆ other := ho ▸ (after_suffix _ other).subset
    split
    · next hp =>
      have hp : p ∉ other := by simpa using hp
      have hseg' : ∀ a ∈ seg ++ [p], a ∉ other := by
        intro a ha
        rcases List.mem_append.mp ha with ha | ha
        · exact hseg a ha
        · rw [List.mem_singleton] at ha
          exact ha ▸ hp
      have hrest' : ∀ a ∈ rest, a ∈ s → a ∈ primary := by
        intro a ha has
        refine (List.mem_cons.mp (hrest a ha has)).resolve_left fun hap => ?_
        exact hp (hap ▸ hrestother ha)
      exact ih (by simpa using hs) ho hseg' hrest' (by simpa [hp] using hsub)
        (by simpa [hp] using hnodup) hmerged (by simpa using hprimary) hother
    · next hp =>
      have hp : p ∈ other := by simpa using hp
      have hcons : (p :: primary.filter (· ∈ other)).Sublist rest := by
        simpa [hp] using hsub
      obtain ⟨hsplit, hsub'⟩ := split_at_common hcons
      generalize rest.takeWhile (· ≠ p) = oseg at hsplit ⊢
      generalize (rest.dropWhile (· ≠ p)).tail = rest' at hsplit hsub' ⊢
      rw [hsplit] at ho hrest hnodup hother hrestother
      have hps : p ∈ s := by
        refine (after_suffix merged.getLast? s).subset ?_
        rw [hs]
        simp
      have hrestnodup : (oseg ++ p :: rest').Nodup := (List.nodup_append.mp hnodup).2.1
      obtain ⟨_, hprestnodup, hosegdisj⟩ := List.nodup_append.mp hrestnodup
      have hsegnodup : (merged ++ seg ++ oseg).Nodup :=
        hnodup.sublist ((List.sublist_append_left _ _).append (List.sublist_append_left _ _))
      have hoseg : ∀ a ∈ oseg, a ∉ s := by
        intro a ha has
        rcases List.mem_cons.mp (hrest a (List.mem_append_left _ ha) has) with rfl | hap
        · exact hosegdisj a ha a (by simp) rfl
        · have haother := hrestother (List.mem_append_left _ ha)
          have harest := hsub'.subset (List.mem_filter.mpr ⟨hap, by simpa using haother⟩)
          exact hosegdisj a ha a (List.mem_cons_of_mem p harest) rfl
      have hgap : gap merged.getLast? s other = seg :=
        gap_append hs hseg (by simpa using hp)
      have hgap' : gap merged.getLast? other s = oseg :=
        gap_append ho hoseg (by simpa using hps)
      obtain ⟨hatomicseg, hneeds, hprimary'⟩ := paired_insert.mp hprimary
      obtain ⟨hatomicoseg, hneeds', hother'⟩ := paired_insert.mp hother
      -- the read of a common rmw write stands before it in both sequences
      have hboth : c.isRmwWrite p → seg = [] ∧ oseg = [] := fun hw =>
        common_read hsegnodup (fun a ha => hseg a ha) (fun a ha => hrestother
          (List.mem_append_left _ ha)) (hneeds hw) (hneeds' hw)
      have hnext : ∀ merged' : Sequence, merged'.Perm (merged ++ seg ++ oseg) →
          RmwAtomic c (merged' ++ [p]) →
          RmwAtomic c (joinCommon c other primary [] (some p) rest' (merged' ++ [p])) := by
        intro merged' hperm hatomic
        have hlast : (merged' ++ [p]).getLast? = some p := List.getLast?_concat
        have hstep := @ih [] rest' (merged' ++ [p])
        rw [hlast] at hstep
        refine hstep (after_next hsnodup hs) (after_next honodup ho) (by simp) ?_ hsub' ?_
          hatomic hprimary' hother'
        · intro a ha has
          refine (List.mem_cons.mp (hrest a (by simp [ha]) has)).resolve_left fun hap => ?_
          exact (List.nodup_cons.mp hprestnodup).1 (hap ▸ ha)
        · refine (List.Perm.nodup_iff (List.perm_iff_count.mpr fun x => ?_)).mp hnodup
          have hx := hperm.count_eq x
          simp only [List.count_append, List.filter_cons, hp, List.count_cons] at hx ⊢
          simp
          omega
      dsimp only
      split
      · next hempty =>
        obtain ⟨rfl, rfl⟩ := hempty
        exact hnext merged (by simp) (paired_insert.mpr ⟨hmerged, by simpa using hneeds, trivial⟩)
      · next hempty =>
        split
        · trivial
        · next hne =>
          refine hnext _ (joinPrefix_perm.resolve_left hne) (paired_insert.mpr
            ⟨rmwAtomic_joinPrefix hsegnodup ?_ hatomicoseg ?_ ?_,
              fun hw => absurd (hboth hw) hempty, trivial⟩)
          · exact rmwAtomicAfter_append.mpr ⟨hmerged, by rwa [Option.or_none]⟩
          · have := hkeeps.head merged.getLast?
            rwa [hgap, hgap'] at this
          · have := hkeeps.alone merged.getLast?
            rwa [hgap, hgap'] at this

/-- A join of sequences without a conflict keeps rmws together. -/
theorem rmwAtomic_join {s other : Sequence} (hs : s.Nodup) (ho : other.Nodup)
    (hatomics : RmwAtomic c s) (hatomico : RmwAtomic c other)
    (hconf : conflictsWith s other = none) (hkeeps : JoinKeepsRmw c s other) :
    RmwAtomic c (join c s other) := by
  have hjoin : RmwAtomic c (joinCommon c other s [] (([] : Sequence).getLast?) other []) := by
    refine rmwAtomic_joinCommon hs ho hkeeps rfl rfl (by simp) (fun a _ ha => ha)
      (common_sublist hs ho hconf) ?_ trivial hatomics hatomico
    simpa using nodup_union hs ho
  exact hjoin

/-- What keeps rmws together in a merge: no view adjustment of the conflict
loop separates the halves of an rmw, nor does the join behind the loop. -/
def MergeKeepsRmw (c : Container) : Nat → Sequence → Sequence → Prop
  | 0, _, _ => True
  | fuel + 1, s, t =>
    match conflictsWith s t with
    | none => JoinKeepsRmw c s t
    | some (e1, e2) =>
      match viewAdjust c s e1 e2 with
      | some s' => AdjustKeepsRmw c s e1 e2 ∧ MergeKeepsRmw c fuel s' t
      | none =>
        match viewAdjust c t e2 e1 with
        | some t' => AdjustKeepsRmw c t e2 e1 ∧ MergeKeepsRmw c fuel s t'
        | none => True

/-- The conflict loop keeps rmws together. -/
theorem rmwAtomic_resolveConflicts {fuel : Nat} {s t s' t' : Sequence}
    (hs : s.Nodup) (ht : t.Nodup) (hatomics : RmwAtomic c s) (hatomict : RmwAtomic c t)
    (hkeeps : MergeKeepsRmw c fuel s t)
    (h : resolveConflicts c fuel s t = some (some (s', t'))) :
    RmwAtomic c s' ∧ RmwAtomic c t' ∧ JoinKeepsRmw c s' t' := by
  induction fuel generalizing s t with
  | zero => cases h
  | succ fuel ih =>
    rw [resolveConflicts] at h
    rw [MergeKeepsRmw] at hkeeps
    cases hconf : conflictsWith s t with
    | none =>
      rw [hconf] at h hkeeps
      cases h
      exact ⟨hatomics, hatomict, hkeeps⟩
    | some p =>
      obtain ⟨e1, e2⟩ := p
      obtain ⟨hprec, he1, _, _⟩ := conflictsWith_some hconf
      rw [hconf] at h hkeeps
      dsimp only at h hkeeps
      cases hadj : viewAdjust c s e1 e2 with
      | some s'' =>
        rw [hadj] at h hkeeps
        obtain ⟨hadjust, hkeeps⟩ := hkeeps
        exact ih ((viewAdjust_perm hprec.mem_right hadj).nodup_iff.mp hs) ht
          ((rmwAtomic_viewAdjust_iff hs hprec.mem_right hatomics hadj).mpr hadjust)
          hatomict hkeeps h
      | none =>
        rw [hadj] at h hkeeps
        dsimp only at h hkeeps
        cases hadj' : viewAdjust c t e2 e1 with
        | some t'' =>
          rw [hadj'] at h hkeeps
          obtain ⟨hadjust, hkeeps⟩ := hkeeps
          exact ih hs ((viewAdjust_perm he1 hadj').nodup_iff.mp ht) hatomics
            ((rmwAtomic_viewAdjust_iff ht he1 hatomict hadj').mpr hadjust) hkeeps h
        | none =>
          rw [hadj'] at h
          cases h

theorem rmwAtomic_consistentMerge {fuel : Nat} {s t : Sequence} {m : Merge}
    (hs : s.Nodup) (ht : t.Nodup) (hatomics : RmwAtomic c s) (hatomict : RmwAtomic c t)
    (hkeeps : MergeKeepsRmw c fuel s t) (h : consistentMerge fuel c s t = some m) :
    RmwAtomic c m.result := by
  by_cases hm : m.result = []
  · rw [hm]
    trivial
  · by_cases hs0 : s = []
    · rw [consistentMerge, if_pos hs0] at h
      cases h
      exact hatomict
    · by_cases ht0 : t = []
      · rw [consistentMerge, if_neg hs0, if_pos ht0] at h
        cases h
        exact hatomics
      · obtain ⟨s', t', hres, hjoin, _⟩ := consistentMerge_eq_some hs0 ht0 h hm
        obtain ⟨hps, hpt, hconf⟩ := resolveConflicts_perm hres
        obtain ⟨hatomics', hatomict', hkeeps'⟩ :=
          rmwAtomic_resolveConflicts hs ht hatomics hatomict hkeeps hres
        rw [hjoin]
        exact rmwAtomic_join (hps.nodup_iff.mp hs) (hpt.nodup_iff.mp ht) hatomics'
          hatomict' hconf hkeeps'

/-! ## Backward starts -/

/-- Without a source, the loop that looks for the place keeps the event. -/
theorem findPlace_event (event : Event) (e1Delim : IID) (causal : Sequence) :
    (findPlace c [] event e1Delim causal).event = event := by
  have hstep : ∀ (st : PlaceState) (ie : Nat × IID),
      (placeStep c [] e1Delim st ie).event = st.event := by
    intro st ie
    simp only [placeStep, if_true]
    split
    · rfl
    · split <;> rfl
  have hloop : ∀ (l : List (Nat × IID)) (st : PlaceState),
      (l.foldl (placeStep c [] e1Delim) st).event = st.event := by
    intro l
    induction l with
    | nil => exact fun _ => rfl
    | cons ie l ih => exact fun st => (ih _).trans (hstep st ie)
  exact hloop _ _

/-- The read of an rmw write in a sequence that keeps rmws together. -/
theorem isOwnRmwRead_pred {s : Sequence} {w : IID} (hw : w ∈ s)
    (hatomic : RmwAtomic c s) (hneeds : c.isRmwWrite w) :
    c.isOwnRmwRead ⟨w.pid, w.idx - 1⟩ w := by
  obtain ⟨P, Q, rfl⟩ := List.append_of_mem hw
  obtain ⟨r, _, hown⟩ := (Option.any_eq_true _ _).mp ((paired_insert.mp hatomic).2.1 hneeds)
  have heq : r = ⟨w.pid, w.idx - 1⟩ := by
    obtain ⟨_, _, hpid, hidx⟩ := Container.isOwnRmwRead_iff.mp hown
    cases r
    simp only [IID.mk.injEq] at *
    omega
  exact heq ▸ hown

/-- A write `e1` keeps rmws together exactly if it does not come between the
halves of one. -/
theorem rmwAtomic_insert_iff {P Q : Sequence} {e1 : IID}
    (hwrite : (c.getEvent e1).isWrite) :
    RmwAtomicAfter c none P ∧ RmwAtomicAfter c (some e1) Q ↔
      RmwAtomic c (P ++ Q) ∧ ∀ w ∈ Q.head?, c.isRmwWrite w = false := by
  rw [RmwAtomic, rmwAtomicAfter_append]
  constructor
  · rintro ⟨hP, hQ⟩
    have hhead : ∀ w ∈ Q.head?, c.isRmwWrite w = false := by
      refine hQ.head fun r hr w hw => ?_
      cases hr
      simp [Container.isOwnRmwRead, Event.isRead_eq_false_of_isWrite hwrite]
    exact ⟨⟨hP, hQ.of_head hhead⟩, hhead⟩
  · rintro ⟨⟨hP, hQ⟩, hhead⟩
    exact ⟨hP, hQ.of_head hhead⟩

/-- The start that `backseq` puts together keeps rmws together: the causal
prefix with `e2` behind it does, and the write `e1` does not come between the
halves of an rmw. -/
def BackseqKeepsRmw (c : Container) (fuel : Nat) (s : Sequence) (e1 e2 : IID) :
    Prop :=
  ∀ e1Delim causal,
    causalPrefix fuel c [] e1 e2 ((s.drop (s.idxOf e1 + 1)).take
      (s.idxOf e2 - (s.idxOf e1 + 1))) = some (e1Delim, causal) →
    if (c.getEvent e1).isWrite then
      let placed := placeWrite e1 e2 e1Delim causal
        (findPlace c [] (c.getEvent e1) e1Delim causal).loc
      RmwAtomic c (placed.erase e1) ∧
        ∀ w ∈ placed[placed.idxOf e1 + 1]?, c.isRmwWrite w = false
    else RmwAtomic c (causal ++ [e2])

theorem rmwAtomic_placed_iff {placed : Sequence} {e1 : IID}
    (hwrite : (c.getEvent e1).isWrite) (hrmw : (c.getEvent e1).isRmw = false) :
    RmwAtomic c placed ↔ RmwAtomic c (placed.erase e1) ∧
      ∀ w ∈ placed[placed.idxOf e1 + 1]?, c.isRmwWrite w = false := by
  by_cases he1 : e1 ∈ placed
  · obtain ⟨P, Q, rfl, heP⟩ := List.eq_append_cons_of_mem he1
    rw [idxOf_append_cons heP, getElem?_behind, List.erase_append_right _ heP,
      List.erase_cons_head, ← rmwAtomic_insert_iff hwrite, RmwAtomic,
      rmwAtomicAfter_insert]
    simp [Container.isRmwWrite, hrmw]
  · rw [List.erase_of_not_mem he1, List.idxOf_eq_length he1]
    simp

theorem rmwAtomic_pushRmwRead_iff {placed R : Sequence} {e1 : IID} {event : Event}
    (hwrite : (c.getEvent e1).isWrite)
    (hown : c.isOwnRmwRead ⟨e1.pid, e1.idx - 1⟩ e1)
    (h : pushRmwRead c [] event e1 placed = R) (hR : R ≠ []) :
    RmwAtomic c R ↔ RmwAtomic c (placed.erase e1) ∧
      ∀ w ∈ placed[placed.idxOf e1 + 1]?, c.isRmwWrite w = false := by
  have hpush : R = pushAt placed (placed.idxOf e1) ⟨e1.pid, e1.idx - 1⟩ := by
    rw [← h] at hR ⊢
    rw [pushRmwRead] at hR ⊢
    dsimp only at hR ⊢
    split
    · next hracing =>
      rw [if_pos hracing] at hR
      exact absurd rfl hR
    · rfl
  have hread : c.isRmwWrite ⟨e1.pid, e1.idx - 1⟩ = false := by
    rw [Bool.eq_false_iff]
    intro hw
    rw [not_isOwnRmwRead_of_isRmwWrite hw] at hown
    cases hown
  by_cases he1 : e1 ∈ placed
  · obtain ⟨P, Q, rfl, heP⟩ := List.eq_append_cons_of_mem he1
    rw [hpush, pushAt, idxOf_append_cons heP, getElem?_behind,
      List.erase_append_right _ heP, List.erase_cons_head, List.take_left,
      List.drop_left, ← rmwAtomic_insert_iff hwrite, RmwAtomic, rmwAtomicAfter_insert]
    simp [RmwAtomicAfter, Paired, hread, hown]
  · rw [hpush, pushAt, List.erase_of_not_mem he1, List.idxOf_eq_length he1,
      List.take_length, List.drop_length, RmwAtomic, rmwAtomicAfter_insert]
    simp [RmwAtomicAfter, Paired, hread]

theorem rmwAtomic_backseq_iff {fuel : Nat} {s R : Sequence} {e1 e2 : IID}
    (he1 : e1 ∈ s) (hatomic : RmwAtomic c s) (h : backseq fuel c s e1 e2 [] = some R)
    (hR : R ≠ []) : RmwAtomic c R ↔ BackseqKeepsRmw c fuel s e1 e2 := by
  simp only [backseq, Option.bind_eq_bind, Option.bind_eq_some_iff, Option.pure_def] at h
  obtain ⟨⟨e1Delim, causal⟩, hcausal, h⟩ := h
  have hkeeps : BackseqKeepsRmw c fuel s e1 e2 ↔
      if (c.getEvent e1).isWrite then
        let placed := placeWrite e1 e2 e1Delim causal
          (findPlace c [] (c.getEvent e1) e1Delim causal).loc
        RmwAtomic c (placed.erase e1) ∧
          ∀ w ∈ placed[placed.idxOf e1 + 1]?, c.isRmwWrite w = false
      else RmwAtomic c (causal ++ [e2]) := by
    constructor
    · exact fun hk => hk e1Delim causal hcausal
    · intro hk e1Delim' causal' hcausal'
      rw [hcausal] at hcausal'
      cases hcausal'
      exact hk
  rw [hkeeps]
  have hevent : eventIn c [] e1 = c.getEvent e1 := by simp [eventIn]
  rw [hevent] at h
  dsimp only at h ⊢
  by_cases hwrite : (c.getEvent e1).isWrite
  · rw [if_pos hwrite] at h ⊢
    split at h
    · cases h
      exact absurd rfl hR
    · rw [findPlace_event] at h
      by_cases hrmw : (c.getEvent e1).isRmw
      · rw [if_pos hrmw] at h
        have hown := isOwnRmwRead_pred he1 hatomic
          (by simp [Container.isRmwWrite, hwrite, hrmw])
        exact rmwAtomic_pushRmwRead_iff hwrite hown (Option.some.inj h) hR
      · rw [if_neg hrmw] at h
        cases h
        exact rmwAtomic_placed_iff hwrite (by simpa using hrmw)
  · rw [if_neg hwrite] at h ⊢
    split at h
    · cases h
      exact absurd rfl hR
    · cases h
      rw [RmwAtomic, rmwAtomicAfter_insert]
      simp [Container.isRmwWrite, hwrite, RmwAtomicAfter, Paired]

/-! ## All four operations -/

/-- A load of `x` beside an rmw of `x`. -/
def loadBesideRmw : Container :=
  let x : SymAddrSize := ⟨.global 1, 0, 1⟩
  { threads :=
      [{ events := [{ Event.makeRead x with iid := ⟨0, 0⟩ }] },
       { events :=
          [{ Event.makeRead x with iid := ⟨1, 0⟩, isRmw := true },
           { Event.makeWrite x [1] with iid := ⟨1, 1⟩, isRmw := true }] }] }

theorem mergeKeepsRmw_loadBesideRmw :
    MergeKeepsRmw loadBesideRmw 10 [⟨0, 0⟩] [⟨1, 0⟩, ⟨1, 1⟩] := by
  have hconf : conflictsWith [⟨0, 0⟩] [⟨1, 0⟩, ⟨1, 1⟩] = none := by decide
  have hgap : ∀ g, (gap g [⟨0, 0⟩] [⟨1, 0⟩, ⟨1, 1⟩]).Sublist [⟨0, 0⟩] := fun g =>
    (List.takeWhile_sublist _).trans (after_suffix g _).sublist
  rw [MergeKeepsRmw, hconf]
  refine ⟨fun g w hw hneeds => ?_, fun g P p z w Q hseg => ?_⟩
  · have hmem := (hgap g).subset (List.mem_of_mem_head? hw)
    rw [List.mem_singleton.mp hmem] at hneeds
    exact absurd hneeds (by decide)
  · have hlen := (hgap g).length_le
    rw [hseg] at hlen
    simp at hlen
    omega

end Sequence

end ViEqui
