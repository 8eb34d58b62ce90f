import ViEqui.BackseqValues

/-!
# The write of a backward start

Where `backseq` puts a write `e1`, and the read of an rmw before it.

* `Placed`: the three ways in which the write gets into the start.
* `placed_finish`: `backseq` puts it in one of these ways.
* `readFits_placed`: the other reads fit afterwards.
* `latest_placed`: the last write before `e2` has the value of `e1`.
-/

namespace ViEqui

open AssocMap Precedence Adjacency

namespace Sequence

variable {c : Container} {mem : Memory} {e1 e2 delim : IID}

/-! ## The place -/

/-- At or behind the place that the loop of `backseq` finds, the write need not
come behind anything. -/
theorem not_blocks_placeLoop (c : Container) (e1 delim : IID) {D : Nat} {P : Sequence}
    (hD : P.length < D) :
    ∀ A x B, P = A ++ x :: B →
      (placeLoop c [] delim { event := c.getEvent e1, delimLoc := D } P).loc ≤ A.length →
        ¬Blocks c e1 A x := by
  induction P using List.reverseRecOn with
  | nil =>
    intro A x B heq
    simp at heq
  | append_singleton P y ih =>
    have hlen : (P ++ [y]).length = P.length + 1 := by simp
    rw [hlen] at hD
    have hst : PlacedBehind c e1 delim P D _ := placedBehind_placeLoop delim D P (by omega)
    have ih' := ih (by omega)
    rw [placeLoop_concat]
    generalize placeLoop c [] delim { event := c.getEvent e1, delimLoc := D } P = st
      at hst ih' ⊢
    classical
    rw [placeStep_nil hst.event hst.found]
    dsimp only
    intro A x B heq hle hblocks
    rcases List.eq_nil_or_concat B with rfl | ⟨B', z, rfl⟩
    · obtain ⟨rfl, hyx⟩ := List.append_inj' heq rfl
      cases hyx
      rw [if_pos hblocks] at hle
      omega
    · rw [List.concat_eq_append, ← List.cons_append, ← List.append_assoc] at heq
      obtain ⟨rfl, hyz⟩ := List.append_inj' heq rfl
      split at hle
      · simp only [List.length_append, List.length_cons] at hle
        omega
      · exact ih' A x B' rfl hle hblocks

/-- The read that `backseq` puts before the write of an rmw. -/
def rmwReads (c : Container) (e1 : IID) : Sequence :=
  if (c.getEvent e1).isRmw then [⟨e1.pid, e1.idx - 1⟩] else []

/-- The last write of the object of an rmw write `e1` in `L` has the value that
the read of `e1` has. -/
def LeavesRead (c : Container) (e1 : IID) (L : Sequence) : Prop :=
  (c.getEvent e1).isRmw → ∀ w, latest (fun x => (c.getEvent e1).sameObject (c.getEvent x) &&
    (c.getEvent x).isWrite) L = some w →
      (c.getEvent w).value = (c.getEvent ⟨e1.pid, e1.idx - 1⟩).value

/-- The starts that `backseq` makes of the causal prefix `P` for a write `e1`:
it is inserted, the prefix has it, or the merges of the prefix have lost it. -/
inductive Placed (c : Container) (e1 e2 delim : IID) (P : Sequence) : Sequence → Prop
  | inserted (P1 P2 : Sequence) : P = P1 ++ P2 → delim ≠ e1 →
      (∀ A x B, P2 = A ++ x :: B → ¬Blocks c e1 (P1 ++ A) x) → LeavesRead c e1 P1 →
        Placed c e1 e2 delim P (P1 ++ rmwReads c e1 ++ e1 :: P2 ++ [e2])
  | held (P1 P2 : Sequence) : P = P1 ++ e1 :: P2 → delim = e1 →
      (∀ A x B, P2 = A ++ x :: B → ¬Blocks c e1 (P1 ++ e1 :: A) x) → LeavesRead c e1 P1 →
        Placed c e1 e2 delim P (P1 ++ rmwReads c e1 ++ e1 :: P2 ++ [e2])
  | lost : e1 ∉ P → delim = e1 → LeavesRead c e1 (P ++ [e2]) →
      Placed c e1 e2 delim P (P ++ e2 :: rmwReads c e1)

theorem pushAt_append (L Q : Sequence) (e : IID) :
    pushAt (L ++ Q) L.length e = L ++ e :: Q := by
  unfold pushAt
  rw [List.take_left, List.drop_left]

/-- `pushRmwRead` in the last lines of `backseq`. -/
theorem pushRmwRead_eq {L Q : Sequence} (he1 : e1 ∉ L) (hQ : Q = [] ∨ ∃ Q', Q = e1 :: Q')
    {R : Sequence} (hR : R ≠ [])
    (h : (if (c.getEvent e1).isRmw then pushRmwRead c [] (c.getEvent e1) e1 (L ++ Q)
      else L ++ Q) = R) :
    LeavesRead c e1 L ∧ R = L ++ rmwReads c e1 ++ Q := by
  have hidx : (L ++ Q).idxOf e1 = L.length := by
    rcases hQ with rfl | ⟨Q', rfl⟩
    · rw [List.append_nil, List.idxOf_eq_length he1]
    · exact idxOf_append_cons he1
  have hbefore : latestBefore (· = e1) (fun x => (c.getEvent e1).sameObject (c.getEvent x) &&
      (c.getEvent x).isWrite) (L ++ Q) = latest (fun x =>
        (c.getEvent e1).sameObject (c.getEvent x) && (c.getEvent x).isWrite) L := by
    unfold latestBefore
    rw [← take_idxOf, hidx, List.take_left]
  unfold LeavesRead rmwReads
  by_cases hrmw : (c.getEvent e1).isRmw
  · rw [if_pos hrmw] at h ⊢
    rcases pushRmwRead_nil (c := c) e1 (L ++ Q) with ⟨hkeeps, hpush⟩ | ⟨-, hpush⟩
    · rw [hpush, hidx, pushAt_append] at h
      unfold ReadKeepsValue at hkeeps
      rw [hbefore] at hkeeps
      exact ⟨fun _ => hkeeps, by simp [← h]⟩
    · rw [hpush] at h
      exact absurd h.symm hR
  · rw [if_neg hrmw] at h ⊢
    exact ⟨fun h => absurd h hrmw, by simp [← h]⟩

theorem placed_finish {P R : Sequence} (hP : P.Nodup) (he2 : e1 ≠ e2)
    (hdelim : e1 ∈ P → delim = e1) (h : finish c [] e1 e2 delim P = R) (hR : R ≠ []) :
    Placed c e1 e2 delim P R := by
  have hst : PlacedBehind c e1 delim P (P.length + 1) _ :=
    placedBehind_placeLoop delim (P.length + 1) P (Nat.lt_succ_self _)
  have hblocks := not_blocks_placeLoop c e1 delim (Nat.lt_succ_self P.length)
  have hplace : findPlace c [] (c.getEvent e1) delim P =
      placeLoop c [] delim { event := c.getEvent e1, delimLoc := P.length + 1 } P := rfl
  unfold finish at h
  rw [hplace] at h
  generalize placeLoop c [] delim { event := c.getEvent e1, delimLoc := P.length + 1 } P = st
    at hst hblocks h
  dsimp only at h
  rw [hst.event] at h
  split at h
  · exact absurd h.symm hR
  · next hlate =>
    unfold placeWrite at h
    by_cases hd : delim = e1
    · rw [if_pos hd] at h
      by_cases he1 : e1 ∈ P
      · obtain ⟨P1, P2, rfl, he1P⟩ := List.eq_append_cons_of_mem he1
        rw [List.append_assoc, List.cons_append] at h
        obtain ⟨hleaves, rfl⟩ := pushRmwRead_eq he1P (.inr ⟨_, rfl⟩) hR h
        rw [← List.cons_append, ← List.append_assoc]
        refine .held P1 P2 rfl hd (fun A x B heq hb => ?_) hleaves
        -- the loop would have found that `e1` stands too early
        have he1P2 : e1 ∉ P2 := (List.nodup_cons.mp hP.of_append_right).1
        refine hlate (hst.late.mpr ⟨P1 ++ e1 :: A, x, B, by simp [heq], hb, by simp [hd], ?_⟩)
        rw [hd]
        exact fun hB => he1P2 (by simp [heq, hB])
      · rw [← List.append_nil (P ++ [e2])] at h
        obtain ⟨hleaves, rfl⟩ := pushRmwRead_eq (by simp [he1, he2]) (.inl rfl) hR h
        rw [List.append_nil, List.append_assoc, List.singleton_append]
        exact .lost he1 hd hleaves
    · rw [if_neg hd] at h
      have he1 : e1 ∉ P := fun h => hd (hdelim h)
      obtain ⟨P1, P2, rfl, hlen⟩ : ∃ P1 P2, P = P1 ++ P2 ∧ P1.length = st.loc :=
        ⟨P.take st.loc, P.drop st.loc, (List.take_append_drop _ _).symm, by
          rw [List.length_take]
          exact Nat.min_eq_left hst.le⟩
      rw [← hlen, List.append_assoc, pushAt_append] at h
      obtain ⟨hleaves, rfl⟩ := pushRmwRead_eq (fun h => he1 (by simp [h])) (.inr ⟨_, rfl⟩) hR h
      rw [← List.cons_append, ← List.append_assoc]
      refine .inserted P1 P2 rfl hd (fun A x B heq => ?_) hleaves
      refine hblocks (P1 ++ A) x B (by simp [heq]) ?_
      rw [← hlen, List.length_append]
      omega

/-! ## Reads beside the write -/

/-- The last write of the object of `x` in `L`, or the memory `mem`, has the
recorded value of `x`. -/
def FitsBehind (c : Container) (mem : Memory) (L : Sequence) (x : IID) : Prop :=
  match latest (fun w => (c.getEvent w).writesTo (c.getEvent x)) L with
  | some w => (c.getEvent w).value = (c.getEvent x).value
  | none => getD mem (c.getEvent x).object 0 = (c.getEvent x).value

theorem readFits_iff {A B : Sequence} {x : IID} (hx : x ∉ A) :
    ReadFits c mem (A ++ x :: B) x ↔ FitsBehind c mem A x := by
  rw [ReadFits, source_eq_latest hx]
  rfl

theorem FitsBehind.congr {L L' : Sequence} {x : IID} (h : FitsBehind c mem L x)
    (heq : latest (fun w => (c.getEvent w).writesTo (c.getEvent x)) L' =
      latest (fun w => (c.getEvent w).writesTo (c.getEvent x)) L) :
    FitsBehind c mem L' x := by
  unfold FitsBehind
  rw [heq]
  exact h

/-- The value of `x` is not that of a racing write, so `e1` may come between
`x` and its source. -/
theorem FitsBehind.insert {L L' : Sequence} {x : IID} (h : FitsBehind c mem (L ++ L') x)
    (hread : (c.getEvent x).isRead) (hblocks : ¬Blocks c e1 (L ++ L') x)
    (hsource : (c.getEvent e1).writesTo (c.getEvent x) →
      latest (fun w => (c.getEvent w).writesTo (c.getEvent x)) (L ++ L') ≠ none) :
    FitsBehind c mem (L ++ e1 :: L') x := by
  unfold FitsBehind at h ⊢
  rw [latest_append] at h hsource ⊢
  rw [latest_cons]
  cases hlate : latest (fun w => (c.getEvent w).writesTo (c.getEvent x)) L' with
  | some w =>
    rw [hlate] at h
    exact h
  | none =>
    rw [hlate, Option.none_or] at h hsource
    rw [Option.none_or]
    by_cases he1 : (c.getEvent e1).writesTo (c.getEvent x)
    · rw [if_pos he1]
      cases hearly : latest (fun w => (c.getEvent w).writesTo (c.getEvent x)) L with
      | none => exact absurd hearly (hsource he1)
      | some w =>
        rw [hearly] at h
        have hwrites : (c.getEvent w).writesTo (c.getEvent x) := (latest_eq_some_iff.mp hearly).1
        have hobj : (c.getEvent e1).object = (c.getEvent x).object :=
          (Event.writesTo_iff.mp he1).2
        obtain ⟨hw, hwobj⟩ := Event.writesTo_iff.mp hwrites
        by_contra hne
        refine hblocks (.inr ⟨by simp [Event.sameObject, hobj], hread, w,
          List.mem_append_left L' (mem_of_latest hearly), ?_, hw, ?_⟩)
        · simp [Event.sameObject, hobj, hwobj]
        · exact fun heq => hne (heq.symm.trans h)
    · rw [if_neg he1]
      exact h

section Placed

variable {A W Z P R : Sequence}

/-- The read of an rmw write `e1` stands before it, and has read the memory
there. -/
theorem rmwRead_facts (hs : ExecutionSequence c mem (A ++ e1 :: (W ++ e2 :: Z)))
    (hwrite : (c.getEvent e1).isWrite) (hrmw : (c.getEvent e1).isRmw) :
    (⟨e1.pid, e1.idx - 1⟩ : IID) ∈ A ∧ c.isOwnRmwRead ⟨e1.pid, e1.idx - 1⟩ e1 ∧
      (c.getEvent ⟨e1.pid, e1.idx - 1⟩).object = (c.getEvent e1).object ∧
        valueIn c mem A (c.getEvent e1).object =
          (c.getEvent ⟨e1.pid, e1.idx - 1⟩).value := by
  have hw : c.isRmwWrite e1 := by simp [Container.isRmwWrite, hwrite, hrmw]
  obtain ⟨A', rfl, hown, -⟩ := hs.rmwWrite_value hw
  obtain ⟨hobject, -⟩ := hs.halves e1 (by simp) hw
  have hread := (Container.isOwnRmwRead_iff.mp hown).1
  have hnot : ¬(c.getEvent ⟨e1.pid, e1.idx - 1⟩).isWrite := fun h => by
    rw [Event.isRead_eq_false_of_isWrite h] at hread
    cases hread
  have hs' : ExecutionSequence c mem
      (A' ++ ⟨e1.pid, e1.idx - 1⟩ :: e1 :: (W ++ e2 :: Z)) := by simpa using hs
  refine ⟨by simp, hown, hobject, ?_⟩
  rw [valueIn_concat, if_neg fun h => hnot h.1, ← hobject]
  exact (hs'.read_value hread).symm

theorem mem_rmwReads {x : IID} :
    x ∈ rmwReads c e1 ↔ (c.getEvent e1).isRmw ∧ x = ⟨e1.pid, e1.idx - 1⟩ := by
  unfold rmwReads
  split
  · next h => simp [h]
  · next h => simp [h]

/-- The read of an rmw writes nothing. -/
theorem latest_rmwReads (hs : ExecutionSequence c mem (A ++ e1 :: (W ++ e2 :: Z)))
    (hwrite : (c.getEvent e1).isWrite) (L Q : Sequence) (x : IID) :
    latest (fun w => (c.getEvent w).writesTo (c.getEvent x)) (L ++ rmwReads c e1 ++ Q) =
      latest (fun w => (c.getEvent w).writesTo (c.getEvent x)) (L ++ Q) := by
  have hnone : latest (fun w => (c.getEvent w).writesTo (c.getEvent x)) (rmwReads c e1) =
      none := by
    rw [latest_eq_none]
    intro r hr
    obtain ⟨hrmw, rfl⟩ := mem_rmwReads.mp hr
    have hread := (Container.isOwnRmwRead_iff.mp (rmwRead_facts hs hwrite hrmw).2.1).1
    rw [Bool.eq_false_iff]
    intro h
    rw [Event.isRead_eq_false_of_isWrite (Event.writesTo_iff.mp h).1] at hread
    cases hread
  simp only [latest_append, hnone, Option.none_or]

/-- The read of an rmw write `e1` fits behind events that leave its value. -/
theorem fitsBehind_rmwRead (hs : ExecutionSequence c mem (A ++ e1 :: (W ++ e2 :: Z)))
    (hwrite : (c.getEvent e1).isWrite) {L : Sequence} (hleaves : LeavesRead c e1 L) {x : IID}
    (hx : x ∈ rmwReads c e1) : FitsBehind c (memoryBehind c mem A) L x := by
  obtain ⟨hrmw, rfl⟩ := mem_rmwReads.mp hx
  obtain ⟨-, -, hobject, hvalue⟩ := rmwRead_facts hs hwrite hrmw
  have hsame : (fun w => (c.getEvent e1).sameObject (c.getEvent w) && (c.getEvent w).isWrite) =
      fun w => (c.getEvent w).writesTo (c.getEvent ⟨e1.pid, e1.idx - 1⟩) := by
    funext w
    rw [Bool.eq_iff_iff, Event.writesTo_iff, hobject, Bool.and_eq_true, Event.sameObject,
      decide_eq_true_eq]
    exact and_comm.trans (and_congr_right fun _ => eq_comm)
  have hleaves' := hleaves hrmw
  rw [hsame] at hleaves'
  unfold FitsBehind
  cases hlatest : latest (fun w => (c.getEvent w).writesTo
      (c.getEvent ⟨e1.pid, e1.idx - 1⟩)) L with
  | some w => exact hleaves' w hlatest
  | none =>
    dsimp only
    rw [hobject]
    exact hvalue

/-- The reads of the causal prefix, and the read of an rmw write `e1`, fit in
the start. -/
theorem readFits_placed (hs : ExecutionSequence c mem (A ++ e1 :: (W ++ e2 :: Z)))
    (hwrite : (c.getEvent e1).isWrite) (hPW : P ⊆ e1 :: W)
    (hfits : ReadsFit c (memoryBehind c mem A) P)
    (hsources : delim ≠ e1 → HasSources c (c.getEvent e1).object P)
    (hplaced : Placed c e1 e2 delim P R) {x : IID} (hx : x ∈ R) (he1 : x ≠ e1) (he2 : x ≠ e2)
    (hread : (c.getEvent x).isRead) : ReadFits c (memoryBehind c mem A) R x := by
  -- an event that stands before all that is inserted
  have hbefore {P1 P2 Q : Sequence} (heq : P = P1 ++ P2) (hx : x ∈ P1) :
      ReadFits c (memoryBehind c mem A) (P1 ++ Q) x := by
    obtain ⟨A', B', rfl, hxA⟩ := List.eq_append_cons_of_mem hx
    have hfit := hfits x (by simp [heq]) hread
    rw [heq, List.append_assoc, List.cons_append, readFits_iff hxA] at hfit
    rw [List.append_assoc, List.cons_append, readFits_iff hxA]
    exact hfit
  -- the read of `e1`
  have hnew {L Q : Sequence} (hL : L ⊆ e2 :: e1 :: W) (hleaves : LeavesRead c e1 L)
      (hx : x ∈ rmwReads c e1) :
      ReadFits c (memoryBehind c mem A) (L ++ rmwReads c e1 ++ Q) x := by
    obtain ⟨hrmw, rfl⟩ := mem_rmwReads.mp hx
    have hA := (rmwRead_facts hs hwrite hrmw).1
    have hnot : (⟨e1.pid, e1.idx - 1⟩ : IID) ∉ L := by
      intro hmem
      have hlater : (⟨e1.pid, e1.idx - 1⟩ : IID) ∈ e1 :: (W ++ e2 :: Z) := by
        have := hL hmem
        simp only [List.mem_cons, List.mem_append] at this ⊢
        tauto
      exact (List.nodup_append.mp hs.nodup).2.2 _ hA _ hlater rfl
    have hlist : rmwReads c e1 = [⟨e1.pid, e1.idx - 1⟩] := if_pos hrmw
    rw [hlist, List.append_assoc, List.singleton_append, readFits_iff hnot]
    exact fitsBehind_rmwRead hs hwrite hleaves hx
  have hfront {P1 P2 Q : Sequence} (heq : P = P1 ++ P2) (hleaves : LeavesRead c e1 P1)
      (hx : x ∈ P1 ∨ x ∈ rmwReads c e1) :
      ReadFits c (memoryBehind c mem A) (P1 ++ rmwReads c e1 ++ Q) x := by
    rcases hx with hx | hx
    · rw [List.append_assoc]
      exact hbefore heq hx
    · exact hnew (fun y hy => List.mem_cons_of_mem e2 (hPW (by simp [heq, hy]))) hleaves hx
  have hbehind {P1 P2 : Sequence} (hx : x ∈ P1 ++ rmwReads c e1 ++ e1 :: P2 ++ [e2])
      (hfront : ¬(x ∈ P1 ∨ x ∈ rmwReads c e1)) : x ∈ P2 := by
    simp only [List.mem_append, List.mem_cons, List.not_mem_nil, or_false] at hx
    tauto
  cases hplaced with
  | inserted P1 P2 heq hdelim hblocks hleaves =>
    by_cases hxfront : x ∈ P1 ∨ x ∈ rmwReads c e1
    · rw [List.append_assoc (P1 ++ rmwReads c e1)]
      exact hfront heq hleaves hxfront
    · obtain ⟨A', B', rfl, hxA⟩ := List.eq_append_cons_of_mem (hbehind hx hxfront)
      obtain ⟨hxP1, hxnew⟩ := not_or.mp hxfront
      have hmem : x ∈ P := by simp [heq]
      have hfit := hfits x hmem hread
      have hsource := fun ho => hsources hdelim x hmem hread ho
      have hxPA : x ∉ P1 ++ A' := by simp [hxP1, hxA]
      rw [heq, ← List.append_assoc, source_eq_latest hxPA] at hsource
      rw [heq, ← List.append_assoc, readFits_iff hxPA] at hfit
      have hsplit : P1 ++ rmwReads c e1 ++ e1 :: (A' ++ x :: B') ++ [e2] =
          (P1 ++ rmwReads c e1 ++ e1 :: A') ++ x :: (B' ++ [e2]) := by simp
      rw [hsplit, readFits_iff (by simp [hxP1, hxnew, hxA, he1])]
      refine FitsBehind.congr ?_ (latest_rmwReads hs hwrite P1 (e1 :: A') x)
      exact hfit.insert hread (hblocks A' x B' rfl)
        fun hw => hsource (Event.writesTo_iff.mp hw).2.symm
  | held P1 P2 heq hdelim hblocks hleaves =>
    by_cases hxfront : x ∈ P1 ∨ x ∈ rmwReads c e1
    · rw [List.append_assoc (P1 ++ rmwReads c e1)]
      exact hfront heq hleaves hxfront
    · obtain ⟨A', B', rfl, hxA⟩ := List.eq_append_cons_of_mem (hbehind hx hxfront)
      obtain ⟨hxP1, hxnew⟩ := not_or.mp hxfront
      have hfit := hfits x (by simp [heq]) hread
      have hxPA : x ∉ P1 ++ e1 :: A' := by simp [hxP1, hxA, he1]
      rw [heq, ← List.cons_append, ← List.append_assoc, readFits_iff hxPA] at hfit
      have hsplit : P1 ++ rmwReads c e1 ++ e1 :: (A' ++ x :: B') ++ [e2] =
          (P1 ++ rmwReads c e1 ++ e1 :: A') ++ x :: (B' ++ [e2]) := by simp
      rw [hsplit, readFits_iff (by simp [hxP1, hxnew, hxA, he1])]
      exact hfit.congr (latest_rmwReads hs hwrite P1 (e1 :: A') x)
  | lost hnot hdelim hleaves =>
    by_cases hxP : x ∈ P
    · exact hbefore (List.append_nil P).symm hxP
    · have hxnew : x ∈ rmwReads c e1 := by
        simp only [List.mem_append, List.mem_cons] at hx
        tauto
      have hP : P ++ [e2] ⊆ e2 :: e1 :: W := by
        intro y hy
        rcases List.mem_append.mp hy with hy | hy
        · exact List.mem_cons_of_mem e2 (hPW hy)
        · rw [List.mem_singleton.mp hy]
          exact List.mem_cons_self
      have hfit := hnew (Q := []) hP hleaves hxnew
      simpa using hfit

/-! ## The events of the start -/

/-- The start has events of the execution, each at most once. -/
theorem nodup_placed (hs : ExecutionSequence c mem (A ++ e1 :: (W ++ e2 :: Z)))
    (hwrite : (c.getEvent e1).isWrite) (hP : P.Nodup) (hPW : P ⊆ e1 :: W)
    (hdelim : e1 ∈ P → delim = e1) (hplaced : Placed c e1 e2 delim P R) :
    R.Nodup ∧ R ⊆ A ++ e1 :: (W ++ e2 :: Z) := by
  obtain ⟨Q, hQ, hQW, hperm⟩ : ∃ Q : Sequence, Q.Nodup ∧ Q ⊆ e1 :: W ∧
      R.Perm (rmwReads c e1 ++ e2 :: Q) := by
    have hcount (P1 P2 : Sequence) : (P1 ++ rmwReads c e1 ++ e1 :: P2 ++ [e2]).Perm
        (rmwReads c e1 ++ e2 :: (P1 ++ e1 :: P2)) := by
      rw [List.perm_iff_count]
      intro a
      simp only [List.count_append, List.count_cons, List.count_nil]
      omega
    cases hplaced with
    | inserted P1 P2 heq hne =>
      have he1 : e1 ∉ P := fun h => hne (hdelim h)
      subst heq
      refine ⟨P1 ++ e1 :: P2, List.nodup_middle.mpr (List.nodup_cons.mpr ⟨he1, hP⟩), ?_,
        hcount P1 P2⟩
      intro y hy
      rcases List.mem_append.mp hy with hy | hy
      · exact hPW (List.mem_append_left P2 hy)
      · rcases List.mem_cons.mp hy with rfl | hy
        · exact List.mem_cons_self
        · exact hPW (List.mem_append_right P1 hy)
    | held P1 P2 heq =>
      subst heq
      exact ⟨P1 ++ e1 :: P2, hP, hPW, hcount P1 P2⟩
    | lost =>
      refine ⟨P, hP, hPW, ?_⟩
      rw [List.perm_iff_count]
      intro a
      simp only [List.count_append, List.count_cons]
      omega
  obtain ⟨-, hlater, hdisjoint⟩ := List.nodup_append.mp hs.nodup
  have hW : (e1 :: W ++ e2 :: Z).Nodup := hlater
  have he2 : e2 ∉ e1 :: W := fun h =>
    (List.nodup_append.mp hW).2.2 e2 h e2 List.mem_cons_self rfl
  have hnew (r : IID) (hr : r ∈ rmwReads c e1) : r ∈ A := by
    obtain ⟨hrmw, rfl⟩ := mem_rmwReads.mp hr
    exact (rmwRead_facts hs hwrite hrmw).1
  have hold (y : IID) (hy : y ∈ e2 :: Q) : y ∈ e1 :: (W ++ e2 :: Z) := by
    rcases List.mem_cons.mp hy with rfl | hy
    · simp
    · have := hQW hy
      simp only [List.mem_cons, List.mem_append] at this ⊢
      tauto
  constructor
  · rw [hperm.nodup_iff, List.nodup_append]
    refine ⟨?_, List.nodup_cons.mpr ⟨fun h => he2 (hQW h), hQ⟩, ?_⟩
    · unfold rmwReads
      split
      · exact List.nodup_singleton _
      · exact List.nodup_nil
    · intro r hr y hy
      exact hdisjoint r (hnew r hr) y (hold y hy)
  · intro y hy
    rcases List.mem_append.mp (hperm.mem_iff.mp hy) with hy | hy
    · exact List.mem_append_left _ (hnew y hy)
    · exact List.mem_append_right _ (hold y hy)

/-- Only the read of a lost rmw write stands behind `e2`. -/
theorem behind_placed (hplaced : Placed c e1 e2 delim P R) :
    ∃ L Q, R = L ++ e2 :: Q ∧ ∀ x ∈ Q, x ∈ rmwReads c e1 := by
  cases hplaced with
  | inserted P1 P2 => exact ⟨_, [], rfl, by simp⟩
  | held P1 P2 => exact ⟨_, [], rfl, by simp⟩
  | lost => exact ⟨P, _, rfl, fun x hx => hx⟩

/-! ## What `e2` reads -/

theorem latest_not_racing {L P2 : Sequence} (hwrites : (c.getEvent e1).writesTo (c.getEvent e2))
    (hrace : ∀ x ∈ P2, ¬Racing c e1 x) :
    ∃ w, latest (fun w => (c.getEvent w).writesTo (c.getEvent e2)) (L ++ e1 :: P2) = some w ∧
      (w = e1 ∨ w ∈ P2) ∧ (c.getEvent w).value = (c.getEvent e1).value := by
  rw [latest_append, latest_cons, if_pos hwrites]
  cases hlatest : latest (fun w => (c.getEvent w).writesTo (c.getEvent e2)) P2 with
  | none => exact ⟨e1, rfl, .inl rfl, rfl⟩
  | some w =>
    have hw : (c.getEvent w).writesTo (c.getEvent e2) := (latest_eq_some_iff.mp hlatest).1
    have hmem := mem_of_latest hlatest
    refine ⟨w, rfl, .inr hmem, ?_⟩
    by_contra hne
    refine hrace w hmem ⟨?_, (Event.writesTo_iff.mp hw).1, hne⟩
    simp [Event.sameObject, (Event.writesTo_iff.mp hwrites).2, (Event.writesTo_iff.mp hw).2]

/-- The last write before `e2` has the value of `e1`, unless `e1` is lost. -/
theorem latest_placed (hs : ExecutionSequence c mem (A ++ e1 :: (W ++ e2 :: Z)))
    (hwrites : (c.getEvent e1).writesTo (c.getEvent e2)) (hheld : delim = e1 → e1 ∈ P)
    (hplaced : Placed c e1 e2 delim P R) :
    ∃ P1 P2 w, R = P1 ++ rmwReads c e1 ++ e1 :: P2 ++ [e2] ∧ P1 ⊆ P ∧ P2 ⊆ P ∧
      LeavesRead c e1 P1 ∧
      latest (fun w => (c.getEvent w).writesTo (c.getEvent e2))
        (P1 ++ rmwReads c e1 ++ e1 :: P2) = some w ∧
      (c.getEvent w).value = (c.getEvent e1).value := by
  have hwrite := (Event.writesTo_iff.mp hwrites).1
  have hnot {L P2 : Sequence} (hblocks : ∀ A x B, P2 = A ++ x :: B → ¬Blocks c e1 (L ++ A) x) :
      ∀ x ∈ P2, ¬Racing c e1 x := by
    intro x hx hrace
    obtain ⟨A', B', rfl⟩ := List.append_of_mem hx
    exact hblocks A' x B' rfl (.inl hrace)
  cases hplaced with
  | inserted P1 P2 heq hdelim hblocks hleaves =>
    obtain ⟨w, hlatest, -, hvalue⟩ := latest_not_racing (L := P1) hwrites (hnot hblocks)
    rw [← latest_rmwReads hs hwrite] at hlatest
    subst heq
    exact ⟨P1, P2, w, rfl, List.subset_append_left _ _, List.subset_append_right _ _, hleaves,
      hlatest, hvalue⟩
  | held P1 P2 heq hdelim hblocks hleaves =>
    have hblocks' : ∀ A x B, P2 = A ++ x :: B → ¬Blocks c e1 ((P1 ++ [e1]) ++ A) x := by
      simpa using hblocks
    obtain ⟨w, hlatest, -, hvalue⟩ := latest_not_racing (L := P1) hwrites (hnot hblocks')
    rw [← latest_rmwReads hs hwrite] at hlatest
    subst heq
    refine ⟨P1, P2, w, rfl, List.subset_append_left _ _, ?_, hleaves, hlatest, hvalue⟩
    exact fun y hy => List.mem_append_right P1 (List.mem_cons_of_mem e1 hy)
  | lost hnot hdelim => exact absurd (hheld hdelim) hnot

end Placed

end Sequence

end ViEqui
