import ViEqui.PlacedWrite

/-!
# Replaying a backward start

`backseq(e1, e2)` is to reverse a read and a write of one object, and to change
nothing else: replayed from the memory before `e1`, the read of the pair gets
the value of its write, and all other reads keep theirs.

* `KeepsSources`, `MergesKeepE1`: what the causal prefixes need for it.
* `keepsOtherReads_of_keepsSources`: the other reads.
* `hitsTarget_iff`: the read of the pair.
-/

namespace ViEqui

open AssocMap Precedence Adjacency

namespace Sequence

variable {c : Container} {mem : Memory} {fuel : Nat} {s : Sequence} {e1 e2 : IID}

/-! ## The start and the execution -/

theorem between_eq {A W Z : Sequence} (he1 : e1 ∉ A) (he2 : e2 ∉ A ++ e1 :: W) :
    between (A ++ (e1 :: W ++ e2 :: Z)) e1 e2 = W := by
  have h1 : (A ++ (e1 :: W ++ e2 :: Z)).idxOf e1 = A.length := idxOf_append_cons he1
  have h2 : (A ++ (e1 :: W ++ e2 :: Z)).idxOf e2 = A.length + (W.length + 1) := by
    rw [← List.append_assoc, idxOf_append_cons he2, List.length_append, List.length_cons]
  have hsub : A.length + (W.length + 1) - (A.length + 1) = W.length := by omega
  unfold between
  rw [h1, h2, hsub, List.drop_append, List.drop_eq_nil_of_le (Nat.le_succ _), List.nil_append,
    Nat.add_sub_cancel_left, List.cons_append, List.drop_succ_cons, List.drop_zero,
    List.take_left]

/-- The two events of a pair stand only at their places. -/
theorem notMem_pair {A W Z : Sequence} (h : (A ++ (e1 :: W ++ e2 :: Z)).Nodup) :
    e1 ∉ A ∧ e2 ∉ A ++ e1 :: W ∧ (e1 :: W).Nodup := by
  obtain ⟨-, hlater, hdisjoint⟩ := List.nodup_append.mp h
  obtain ⟨hW, -, hapart⟩ := List.nodup_append.mp hlater
  refine ⟨fun hA => hdisjoint e1 hA e1 (by simp) rfl, fun hmem => ?_, hW⟩
  rcases List.mem_append.mp hmem with hA | hW
  · exact hdisjoint e2 hA e2 (by simp) rfl
  · exact hapart e2 hW e2 List.mem_cons_self rfl

/-- The memory just before `x` in `s`. -/
def memoryBefore (c : Container) (mem : Memory) (s : Sequence) (x : IID) : Memory :=
  memoryBehind c mem (s.take (s.idxOf x))

theorem memoryBefore_append {A B : Sequence} {x : IID} (hx : x ∉ A) :
    memoryBefore c mem (A ++ x :: B) x = memoryBehind c mem A := by
  rw [memoryBefore, idxOf_append_cons hx, List.take_left]

/-- A start comes from a causal prefix, and a write `e1` is placed in it. -/
theorem exists_causalPrefix {A W Z R : Sequence}
    (hs : ExecutionSequence c mem (A ++ (e1 :: W ++ e2 :: Z)))
    (h : backseq fuel c (A ++ (e1 :: W ++ e2 :: Z)) e1 e2 [] = some R) (hR : R ≠ []) :
    ∃ delim P, causalPrefix fuel c [] e1 e2 W = some (delim, P) ∧ P.Nodup ∧ P ⊆ e1 :: W ∧
      (e1 ∈ P → delim = e1) ∧
      ((c.getEvent e1).isWrite ∧ Placed c e1 e2 delim P R ∨
        ¬(c.getEvent e1).isWrite ∧ e1 ∉ P ∧ R = P ++ [e2] ++ [e1]) := by
  obtain ⟨he1A, he2A, hW⟩ := notMem_pair hs.nodup
  have hne : e1 ≠ e2 := fun h => he2A (by simp [h])
  rw [backseq_eq fuel _ (eventIn_nil e1), between_eq he1A he2A, Option.map_eq_some_iff] at h
  obtain ⟨⟨delim, P⟩, hmerged, hR'⟩ := h
  obtain ⟨hP, hPW, hdelim⟩ := mem_causalPrefix (fun e he => hs.iid e (by simp [he])) hW hmerged
  refine ⟨delim, P, hmerged, hP, hPW, hdelim, ?_⟩
  split at hR'
  · next hwrite => exact .inl ⟨hwrite, placed_finish hP hne hdelim hR' hR⟩
  · next hwrite =>
    split at hR'
    · exact absurd hR'.symm hR
    · next hd =>
      dsimp only at hd hR'
      refine .inr ⟨hwrite, fun h => hd fun heq => hne ?_, hR'.symm⟩
      exact (hdelim h).symm.trans heq

/-- A start has events of the execution, each at most once. -/
theorem nodup_backseq {A W Z R : Sequence}
    (hs : ExecutionSequence c mem (A ++ (e1 :: W ++ e2 :: Z)))
    (h : backseq fuel c (A ++ (e1 :: W ++ e2 :: Z)) e1 e2 [] = some R) (hR : R ≠ []) :
    R.Nodup ∧ R ⊆ A ++ (e1 :: W ++ e2 :: Z) := by
  obtain ⟨delim, P, -, hP, hPW, hdelim, ⟨hwrite, hplaced⟩ | ⟨-, he1P, rfl⟩⟩ :=
    exists_causalPrefix hs h hR
  · exact nodup_placed hs hwrite hP hPW hdelim hplaced
  · obtain ⟨-, he2A, -⟩ := notMem_pair hs.nodup
    have he2P : e2 ∉ P := fun h => he2A (List.mem_append_right A (hPW h))
    have hne : e2 ≠ e1 := fun h => he2A (by simp [h])
    constructor
    · rw [List.append_assoc, List.nodup_append]
      refine ⟨hP, by simp [hne], fun x hx y hy hxy => ?_⟩
      subst hxy
      rcases List.mem_cons.mp hy with rfl | hy
      · exact he2P hx
      · exact he1P (List.mem_singleton.mp hy ▸ hx)
    · intro y hy
      simp only [List.mem_append, List.mem_cons, List.not_mem_nil, or_false] at hy ⊢
      rcases hy with (hy | rfl) | rfl
      · have := hPW hy
        simp only [List.mem_cons] at this
        tauto
      · simp
      · simp

theorem getLast?_own {A B : Sequence} {w : IID} (hatomic : RmwAtomic c (A ++ w :: B))
    (hw : c.isRmwWrite w) : ∃ A', A = A' ++ [⟨w.pid, w.idx - 1⟩] := by
  have hprev := (rmwAtomicAfter_insert.mp hatomic).2.1 hw
  rw [Option.or_none] at hprev
  obtain ⟨r, hlast, hown⟩ := (Option.any_eq_true _ _).mp hprev
  obtain ⟨A', rfl⟩ := List.getLast?_eq_some_iff.mp hlast
  obtain rfl := Container.isOwnRmwRead_unique hown
    (isOwnRmwRead_pred (w := w) (by simp) hatomic hw)
  exact ⟨A', rfl⟩

/-- A start with rmws together and reads that fit is sourced. -/
theorem sourced_of_readFits {mem' : Memory} {K : IID → Prop} {R : Sequence}
    (hs : ExecutionSequence c mem s) (hR : R.Nodup) (hsub : R ⊆ s) (hatomic : RmwAtomic c R)
    (hreads : ∀ x ∈ R, K x → (c.getEvent x).isRead → ReadFits c mem' R x)
    (hwrites : ∀ w, (c.getEvent w).isWrite → K w)
    (hhalves : ∀ A r w B, R = A ++ r :: w :: B → c.isRmwWrite w → K r) :
    Sourced c mem' K R where
  read := by
    intro A x B heq hK hread
    have hx : x ∉ A := by
      rw [heq] at hR
      exact fun hA => (List.nodup_append.mp hR).2.2 x hA x List.mem_cons_self rfl
    have hfit := hreads x (by simp [heq]) hK hread
    rw [heq, readFits_iff hx] at hfit
    unfold FitsBehind at hfit
    cases hlatest : latest (fun w => (c.getEvent w).writesTo (c.getEvent x)) A with
    | none =>
      rw [hlatest] at hfit
      exact hfit
    | some w =>
      rw [hlatest] at hfit
      have hw : (c.getEvent w).writesTo (c.getEvent x) := (latest_eq_some_iff.mp hlatest).1
      exact ⟨hwrites w (Event.writesTo_iff.mp hw).1, hfit⟩
  rmwWrite := by
    intro A w B heq _ hw
    rw [heq] at hatomic
    obtain ⟨A', rfl⟩ := getLast?_own hatomic hw
    obtain ⟨L, Q, rfl⟩ := List.append_of_mem (hsub (by simp [heq] : w ∈ R))
    obtain ⟨-, -, -, hvalue⟩ := hs.rmwWrite_value hw
    exact ⟨A', _, rfl, hhalves A' _ w B (by simpa using heq) hw, hvalue⟩

/-! ## The other reads -/

/-- The causal prefixes keep the sources of their reads: no write is taken into
one of them and left out of another that waits for it, the view adjustments
between them keep sources, and nothing is put between the halves of an
rmw. -/
structure KeepsSources (c : Container) (fuel : Nat) (s : Sequence) (e1 e2 : IID) : Prop where
  takes : TakesSources c e1 e2 (between s e1 e2)
  merges : SecondMergeKeepsSources c fuel e1 e2 (between s e1 e2)
  rmw : BackseqKeepsRmw c fuel s e1 e2

/-- The reads of a start other than those of the pair have their recorded
values when it is replayed from the memory just before `e1`. -/
def KeepsOtherReads (c : Container) (mem : Memory) (fuel : Nat) (s : Sequence) (e1 e2 : IID) :
    Prop :=
  ∀ R, backseq fuel c s e1 e2 [] = some R → R ≠ [] →
    ∀ x ∈ R, x ≠ e1 → x ≠ e2 → (c.getEvent x).isRead →
      replayedValue c (memoryBefore c mem s e1) R x = some (c.getEvent x).value

/-- All events but a read of the pair. -/
def OtherThan (c : Container) (e1 e2 x : IID) : Prop :=
  (c.getEvent x).isRead → x ≠ e1 ∧ x ≠ e2

/-- A start whose causal prefixes keep their sources gives the events other
than the read of the pair the sources that they had. -/
theorem sourced_backseq {A W Z R : Sequence}
    (hs : ExecutionSequence c mem (A ++ (e1 :: W ++ e2 :: Z)))
    (hpair : (c.getEvent e1).rwPair (c.getEvent e2))
    (hkeeps : KeepsSources c fuel (A ++ (e1 :: W ++ e2 :: Z)) e1 e2)
    (h : backseq fuel c (A ++ (e1 :: W ++ e2 :: Z)) e1 e2 [] = some R) (hR : R ≠ []) :
    Sourced c (memoryBehind c mem A) (OtherThan c e1 e2) R := by
  have hatomic : RmwAtomic c R :=
    (rmwAtomic_backseq_iff (by simp) hs.atomic h hR).mpr hkeeps.rmw
  obtain ⟨he1A, he2A, -⟩ := notMem_pair hs.nodup
  have hbetween := between_eq (Z := Z) he1A he2A
  have hs' : ExecutionSequence c mem (A ++ e1 :: (W ++ e2 :: Z)) := hs
  obtain ⟨delim, P, hmerged, hP, hPW, hdelim, hplaced⟩ := exists_causalPrefix hs h hR
  obtain ⟨htakes, hmerges, -⟩ := hkeeps
  rw [hbetween] at htakes hmerges
  obtain ⟨hfits, hsources⟩ := readsFit_causalPrefix hs' htakes hmerges hmerged
  have hwrites : ∀ w, (c.getEvent w).isWrite → OtherThan c e1 e2 w := by
    intro w hw hread
    rw [Event.isRead_eq_false_of_isWrite hw] at hread
    cases hread
  obtain ⟨hnodup, hsub⟩ := nodup_backseq hs h hR
  rcases hplaced with ⟨hwrite, hplaced⟩ | ⟨hnot, he1P, rfl⟩
  · refine sourced_of_readFits hs hnodup hsub hatomic (fun x hx hK hread => ?_) hwrites ?_
    · exact readFits_placed hs' hwrite hPW hfits (hsources hwrite) hplaced hx (hK hread).1
        (hK hread).2 hread
    · intro A' r w B heq hw hread
      refine ⟨fun hr => ?_, fun hr => ?_⟩
      · rw [hr, Event.isRead_eq_false_of_isWrite hwrite] at hread
        cases hread
      · -- no rmw write stands behind `e2`
        obtain ⟨L, Q, rfl, hQ⟩ := behind_placed hplaced
        have hL : e2 ∉ L := fun h => (List.nodup_append.mp hnodup).2.2 e2 h e2 (by simp) rfl
        have hQ' : e2 ∉ Q := (List.nodup_cons.mp hnodup.of_append_right).1
        rw [hr] at heq
        obtain ⟨-, -, rfl⟩ := (List.append_cons_inj_of_notMem hL hQ').mp heq
        obtain ⟨hrmw, rfl⟩ := mem_rmwReads.mp (hQ w List.mem_cons_self)
        have hown := (rmwRead_facts hs' hwrite hrmw).2.1
        rw [not_isOwnRmwRead_of_isRmwWrite hw] at hown
        cases hown
  · have hwrite2 : (c.getEvent e2).isWrite := by
      simp only [Event.rwPair, hnot, Bool.false_and, Bool.false_or, Bool.and_eq_true] at hpair
      exact hpair.2.2
    have hne : e1 ≠ e2 := fun h => he2A (by simp [h])
    refine sourced_of_readFits hs hnodup hsub hatomic (fun x hx hK hread => ?_) hwrites ?_
    · have hxP : x ∈ P := by
        have hne := hK hread
        simp only [List.mem_append, List.mem_singleton] at hx
        tauto
      obtain ⟨A', B', rfl, hxA⟩ := List.eq_append_cons_of_mem hxP
      have hfit := hfits x hxP hread
      rw [readFits_iff hxA] at hfit
      have hsplit : A' ++ x :: B' ++ [e2] ++ [e1] = A' ++ x :: (B' ++ [e2] ++ [e1]) := by simp
      rw [hsplit, readFits_iff hxA]
      exact hfit
    · -- `e1` is the last event
      intro A' r w B heq hw hread
      refine ⟨fun hr => ?_, fun hr => ?_⟩
      · rw [hr] at heq
        have hL : e1 ∉ P ++ [e2] := by simp [he1P, hne]
        obtain ⟨-, -, hnil⟩ := (List.append_cons_inj_of_notMem hL (by simp)).mp heq
        cases hnil
      · rw [hr, Event.isRead_eq_false_of_isWrite hwrite2] at hread
        cases hread

/-- A store of `x`, and a thread that loads `y` and `x`. -/
def storeAndTwoLoads : Container :=
  let x : SymAddrSize := ⟨.global 1, 0, 1⟩
  let y : SymAddrSize := ⟨.global 2, 0, 1⟩
  { threads :=
      [{ events := [{ Event.makeWrite x [1] with iid := ⟨0, 0⟩ }] },
       { events :=
          [{ Event.makeRead y with iid := ⟨1, 0⟩ },
           { Event.makeRead x with iid := ⟨1, 1⟩, value := 1 }] }] }

theorem run_storeAndTwoLoads :
    ExecutionSequence storeAndTwoLoads [] [⟨0, 0⟩, ⟨1, 0⟩, ⟨1, 1⟩] ∧
      (storeAndTwoLoads.getEvent ⟨0, 0⟩).rwPair (storeAndTwoLoads.getEvent ⟨1, 1⟩) ∧
      (storeAndTwoLoads.getEvent ⟨1, 0⟩).isWrite = false ∧
      consistentMerge 10 storeAndTwoLoads (joinPart storeAndTwoLoads ⟨0, 0⟩ ⟨1, 1⟩ [⟨1, 0⟩])
        (joinE1Part storeAndTwoLoads ⟨0, 0⟩ ⟨1, 1⟩ [⟨1, 0⟩]) = some ⟨[], [], []⟩ ∧
      (causalPart storeAndTwoLoads ⟨0, 0⟩ ⟨1, 1⟩ [⟨1, 0⟩]).Sublist [⟨1, 0⟩] ∧
      causalPrefix 10 storeAndTwoLoads [] ⟨0, 0⟩ ⟨1, 1⟩ [⟨1, 0⟩] =
        some (⟨1, 1⟩, [⟨1, 0⟩]) ∧
      let placed := placeWrite ⟨0, 0⟩ ⟨1, 1⟩ ⟨1, 1⟩ [⟨1, 0⟩]
        (findPlace storeAndTwoLoads [] (storeAndTwoLoads.getEvent ⟨0, 0⟩) ⟨1, 1⟩ [⟨1, 0⟩]).loc
      RmwAtomic storeAndTwoLoads (placed.erase ⟨0, 0⟩) ∧
        ∀ w ∈ placed[placed.idxOf ⟨0, 0⟩ + 1]?, storeAndTwoLoads.isRmwWrite w = false := by
  decide +kernel

/-- A store of `x`; a thread that loads `x`, joins a thread with a store of
`y`, and loads `y` and `x`. -/
def joinedStore : Container :=
  let x : SymAddrSize := ⟨.global 1, 0, 1⟩
  let y : SymAddrSize := ⟨.global 2, 0, 1⟩
  { threads :=
      [{ events := [{ Event.makeWrite x [1] with iid := ⟨0, 0⟩ }] },
       { events :=
          [{ Event.makeRead x with iid := ⟨1, 0⟩, value := 1 },
           { Event.makeJoin 2 with iid := ⟨1, 1⟩ },
           { Event.makeRead y with iid := ⟨1, 2⟩, value := 1 },
           { Event.makeRead x with iid := ⟨1, 3⟩, value := 1 }] },
       { events := [{ Event.makeWrite y [1] with iid := ⟨2, 0⟩ }] }] }

theorem keepsSources_storeAndTwoLoads :
    KeepsSources storeAndTwoLoads 10 [⟨0, 0⟩, ⟨1, 0⟩, ⟨1, 1⟩] ⟨0, 0⟩ ⟨1, 1⟩ := by
  obtain ⟨-, -, hread, hnil, hsub, hP, hplaced⟩ := run_storeAndTwoLoads
  have hbetween : between [⟨0, 0⟩, ⟨1, 0⟩, ⟨1, 1⟩] ⟨0, 0⟩ ⟨1, 1⟩ = [⟨1, 0⟩] := by decide
  constructor
  · rw [hbetween]
    intro R y T heq hw
    have hy : y ∈ ([⟨1, 0⟩] : Sequence) := by simp [heq]
    rw [List.mem_singleton.mp hy, hread] at hw
    cases hw
  · rw [hbetween]
    intro first hfirst
    rw [hnil] at hfirst
    cases hfirst
    exact adjustKeepsSources_of_sublist (List.nodup_singleton ⟨1, 0⟩) (List.nil_sublist _)
      hsub 10
  · intro delim P hmerged
    rw [show ([⟨0, 0⟩, ⟨1, 0⟩, ⟨1, 1⟩] : Sequence).drop _ = [⟨1, 0⟩, ⟨1, 1⟩] from rfl] at hmerged
    rw [show ([⟨1, 0⟩, ⟨1, 1⟩] : Sequence).take _ = [⟨1, 0⟩] from rfl, hP] at hmerged
    cases hmerged
    rw [if_pos (show (storeAndTwoLoads.getEvent ⟨0, 0⟩).isWrite from rfl)]
    exact hplaced

theorem valueIn_eq_latest (L : Sequence) (x : IID) :
    valueIn c mem L (c.getEvent x).object =
      ((latest (fun w => (c.getEvent w).writesTo (c.getEvent x)) L).map
        fun w => (c.getEvent w).value).getD (getD mem (c.getEvent x).object 0) := by
  have hmap : latest (·.writesTo (c.getEvent x)) (L.map c.getEvent) =
      (latest (fun w => (c.getEvent w).writesTo (c.getEvent x)) L).map c.getEvent := by
    unfold latest
    rw [← List.map_reverse, List.find?_map]
    rfl
  unfold valueIn memoryBehind AssocMap.getD
  rw [find?_writtenBehind, hmap]
  cases latest (fun w => (c.getEvent w).writesTo (c.getEvent x)) L with
  | none => rfl
  | some w => rfl

/-- A read gets the value that its object has in the execution of its sourced
prefix. -/
theorem replayedValue_read {K : IID → Prop} {L B : Sequence} {x : IID}
    (h : Sourced c mem K L) (hiid : ∀ y ∈ L ++ [x], (c.getEvent y).iid = y) (hx : x ∉ L)
    (hread : (c.getEvent x).isRead)
    (hK : ∀ w, latest (fun w => (c.getEvent w).writesTo (c.getEvent x)) L = some w → K w) :
    replayedValue c mem (L ++ x :: B) x = some (valueIn c mem L (c.getEvent x).object) := by
  obtain ⟨t, ht⟩ := toEventSequence_append_cons c mem L B x
  have hkeeps := keepsValue_of_sourced h
  have hbefore : (toEventSequence c L mem).findIid x = none := by
    unfold EventSequence.findIid
    rw [List.find?_eq_none]
    intro e he
    have hmem : e.iid ∈ (toEventSequence c L mem).map (·.iid) := List.mem_map_of_mem he
    unfold toEventSequence at hmem
    rw [map_iid_replayEvents, List.map_map] at hmem
    obtain ⟨y, hy, hye⟩ := List.mem_map.mp hmem
    have hiid' : (c.getEvent y).iid = y := hiid y (List.mem_append_left [x] hy)
    rw [decide_eq_true_eq, ← hye]
    exact fun heq => hx ((hiid'.symm.trans heq) ▸ hy)
  have hself : (c.getEvent x).iid = x := hiid x (by simp)
  have hvalue : valueBehind c mem (toEventSequence c L mem) x =
      valueIn c mem L (c.getEvent x).object := by
    have hkind (w : IID) (e : Event) (hw : KeepsValue c K w e) :
        (c.getEvent w).writesTo (c.getEvent x) = e.writesTo (c.getEvent x) := by
      rw [hw.1]
      rfl
    rw [valueBehind_read hread, valueIn_eq_latest]
    rcases latest_forall₂ hkeeps hkind with ⟨hnone, hnone'⟩ | ⟨w, e, hw, he, hwe⟩
    · rw [hnone, hnone']
      rfl
    · rw [hw, he]
      exact hwe.2 (hK w hw)
  unfold replayedValue
  rw [ht]
  unfold EventSequence.findIid at hbefore ⊢
  have hfind : List.find? (fun ev => decide (ev.iid = x)) ((c.getEvent x).withValue
      (valueBehind c mem (toEventSequence c L mem) x) :: t) =
        some ((c.getEvent x).withValue (valueBehind c mem (toEventSequence c L mem) x)) :=
    List.find?_cons_of_pos (decide_eq_true hself)
  rw [List.find?_append, hbefore, Option.none_or, hfind, Option.map_some]
  exact congrArg some hvalue

/-- Where the instruction of `e1` begins: at its read, if it is an rmw
write. -/
def startOf (c : Container) (e1 : IID) : IID :=
  if c.isRmwWrite e1 then ⟨e1.pid, e1.idx - 1⟩ else e1

/-- The read of the pair and its write. -/
def readOf (c : Container) (e1 e2 : IID) : IID := if (c.getEvent e1).isWrite then e2 else e1

def writeOf (c : Container) (e1 e2 : IID) : IID := if (c.getEvent e1).isWrite then e1 else e2

/-- The read of the pair gets the value of its write, when a start is replayed
from the memory before the instruction of `e1`. -/
def HitsTarget (c : Container) (mem : Memory) (fuel : Nat) (s : Sequence) (e1 e2 : IID) :
    Prop :=
  ∀ R, backseq fuel c s e1 e2 [] = some R → R ≠ [] →
    replayedValue c (memoryBefore c mem s (startOf c e1)) R (readOf c e1 e2) =
      some (c.getEvent (writeOf c e1 e2)).value

/-- No rmw write can be what the read of the pair reads. -/
def PlainWrites (c : Container) (s : Sequence) (e1 e2 : IID) : Prop :=
  ∀ w ∈ (if (c.getEvent e1).isWrite then between s e1 e2 else [e2]),
    (c.getEvent w).object = (c.getEvent e1).object → c.isRmwWrite w = false

/-- The merges of the causal prefixes do not lose a write `e1` that a prefix
waits for; or the loss shows only in that the start is empty, or makes no
difference, since the object has the value of `e1` anyhow. -/
def MergesKeepE1 (c : Container) (mem : Memory) (fuel : Nat) (s : Sequence) (e1 e2 : IID) :
    Prop :=
  WaitsForE1 c e1 e2 (between s e1 e2) →
    ∀ delim P, causalPrefix fuel c [] e1 e2 (between s e1 e2) = some (delim, P) →
      e1 ∈ P ∨ ¬LeavesRead c e1 P ∨
        valueIn c (memoryBefore c mem s e1) P (c.getEvent e1).object = (c.getEvent e1).value

theorem memoryBefore_startOf {A B : Sequence} (hs : ExecutionSequence c mem (A ++ e1 :: B)) :
    memoryBefore c mem (A ++ e1 :: B) (startOf c e1) = memoryBehind c mem A := by
  have he1A : e1 ∉ A := fun hA =>
    (List.nodup_append.mp hs.nodup).2.2 e1 hA e1 List.mem_cons_self rfl
  unfold startOf
  by_cases hw : c.isRmwWrite e1
  · obtain ⟨A', rfl, hown, -⟩ := hs.rmwWrite_value hw
    have hread := (Container.isOwnRmwRead_iff.mp hown).1
    have hnot : ¬(c.getEvent ⟨e1.pid, e1.idx - 1⟩).isWrite := fun h => by
      rw [Event.isRead_eq_false_of_isWrite h] at hread
      cases hread
    have hA' : (⟨e1.pid, e1.idx - 1⟩ : IID) ∉ A' := fun h =>
      (List.nodup_append.mp hs.nodup.of_append_left).2.2 _ h _ List.mem_cons_self rfl
    rw [if_pos hw, List.append_assoc, List.singleton_append, memoryBefore_append hA']
    unfold memoryBehind writtenBehind
    rw [List.map_append, List.map_singleton, List.foldl_concat, if_neg hnot]
  · rw [if_neg hw, memoryBefore_append he1A]

/-! ## The sources of the pair -/

section Pair

variable {A W Z P R : Sequence} {delim : IID}

/-- What may change the value that the read of a pair with the write `e1` gets:
the writes of its object, and the read of an rmw `e1`. -/
def Feeds (c : Container) (e1 x : IID) : Prop :=
  (c.getEvent x).isWrite ∧ (c.getEvent x).object = (c.getEvent e1).object ∨ x ∈ rmwReads c e1

/-- Without rmw writes of its object between the pair, a start before `e2` is
sourced in what feeds its read. -/
theorem sourced_plain (hs : ExecutionSequence c mem (A ++ e1 :: (W ++ e2 :: Z)))
    (hwrite : (c.getEvent e1).isWrite)
    (hplain : ∀ w ∈ W, (c.getEvent w).object = (c.getEvent e1).object → c.isRmwWrite w = false)
    {L : Sequence} (hL : ∀ x ∈ L, x ∈ e1 :: W ∨ x ∈ rmwReads c e1)
    (hreads : ∀ B x Q, L = B ++ x :: Q → x ∈ rmwReads c e1 → LeavesRead c e1 B)
    (hown : ∀ B Q, L = B ++ e1 :: Q → (c.getEvent e1).isRmw →
      ∃ B', B = B' ++ [⟨e1.pid, e1.idx - 1⟩]) :
    Sourced c (memoryBehind c mem A) (Feeds c e1) L where
  read := by
    intro B x Q heq hfeeds hread
    have hx : x ∈ rmwReads c e1 := by
      refine hfeeds.resolve_left fun h => ?_
      rw [Event.isRead_eq_false_of_isWrite h.1] at hread
      cases hread
    have hfit := fitsBehind_rmwRead hs hwrite (hreads B x Q heq hx) hx
    unfold FitsBehind at hfit
    cases hlatest : latest (fun w => (c.getEvent w).writesTo (c.getEvent x)) B with
    | none =>
      rw [hlatest] at hfit
      exact hfit
    | some w =>
      rw [hlatest] at hfit
      have hw : (c.getEvent w).writesTo (c.getEvent x) := (latest_eq_some_iff.mp hlatest).1
      obtain ⟨hrmw, rfl⟩ := mem_rmwReads.mp hx
      obtain ⟨-, -, hobject, -⟩ := rmwRead_facts hs hwrite hrmw
      obtain ⟨hw, hobj⟩ := Event.writesTo_iff.mp hw
      exact ⟨.inl ⟨hw, hobj.trans hobject⟩, hfit⟩
  rmwWrite := by
    intro B w Q heq hfeeds hw
    have hiswrite : (c.getEvent w).isWrite := by
      simp only [Container.isRmwWrite, Bool.and_eq_true] at hw
      exact hw.1
    have hnot : w ∉ rmwReads c e1 := by
      intro hmem
      obtain ⟨hrmw, rfl⟩ := mem_rmwReads.mp hmem
      have hread := (Container.isOwnRmwRead_iff.mp (rmwRead_facts hs hwrite hrmw).2.1).1
      rw [Event.isRead_eq_false_of_isWrite hiswrite] at hread
      cases hread
    have hobject := (hfeeds.resolve_right hnot).2
    have hself : w = e1 := by
      rcases List.mem_cons.mp ((hL w (by simp [heq])).resolve_right hnot) with h | h
      · exact h
      · rw [hplain w h hobject] at hw
        cases hw
    subst hself
    have hrmw : (c.getEvent w).isRmw := by
      simp only [Container.isRmwWrite, Bool.and_eq_true] at hw
      exact hw.2
    obtain ⟨B', rfl⟩ := hown B Q heq hrmw
    obtain ⟨-, -, -, hvalue⟩ := hs.rmwWrite_value hw
    exact ⟨B', _, rfl, .inr (mem_rmwReads.mpr ⟨hrmw, rfl⟩), hvalue⟩

/-- The same for the part of a start before `e2`. -/
theorem sourced_placed (hs : ExecutionSequence c mem (A ++ e1 :: (W ++ e2 :: Z)))
    (hwrite : (c.getEvent e1).isWrite)
    (hplain : ∀ w ∈ W, (c.getEvent w).object = (c.getEvent e1).object → c.isRmwWrite w = false)
    (hP : P.Nodup) (hPW : P ⊆ e1 :: W) (hdelim : e1 ∈ P → delim = e1)
    (hplaced : Placed c e1 e2 delim P R) {L Q : Sequence} (hR : R = L ++ e2 :: Q) :
    Sourced c (memoryBehind c mem A) (Feeds c e1) L := by
  obtain ⟨hnodup, -⟩ := nodup_placed hs hwrite hP hPW hdelim hplaced
  have he2 {L' Q' : Sequence} (heq : R = L' ++ e2 :: Q') : L = L' := by
    rw [heq] at hnodup hR
    have hL' : e2 ∉ L' := fun h => (List.nodup_append.mp hnodup).2.2 e2 h e2 (by simp) rfl
    have hQ' : e2 ∉ Q' := (List.nodup_cons.mp hnodup.of_append_right).1
    exact ((List.append_cons_inj_of_notMem hL' hQ').mp hR).1.symm
  have hput {P1 P2 : Sequence} (hR' : R = P1 ++ rmwReads c e1 ++ e1 :: P2 ++ [e2])
      (hP1 : P1 ⊆ P) (hP2 : P2 ⊆ P) (hleaves : LeavesRead c e1 P1) :
      Sourced c (memoryBehind c mem A) (Feeds c e1) (P1 ++ rmwReads c e1 ++ e1 :: P2) := by
    have hnodup' : (P1 ++ rmwReads c e1 ++ e1 :: P2).Nodup := by
      rw [hR'] at hnodup
      exact hnodup.of_append_left
    refine sourced_plain hs hwrite hplain (fun x hx => ?_) (fun B x Q heq hx => ?_)
      (fun B Q heq hrmw => ?_)
    · simp only [List.mem_append, List.mem_cons] at hx
      rcases hx with (hx | hx) | hx | hx
      · exact .inl (hPW (hP1 hx))
      · exact .inr hx
      · exact .inl (by simp [hx])
      · exact .inl (hPW (hP2 hx))
    · obtain ⟨hrmw, rfl⟩ := mem_rmwReads.mp hx
      have hlist : rmwReads c e1 = [⟨e1.pid, e1.idx - 1⟩] := if_pos hrmw
      rw [hlist, List.append_assoc, List.singleton_append] at heq hnodup'
      have h1 : (⟨e1.pid, e1.idx - 1⟩ : IID) ∉ P1 := fun h =>
        (List.nodup_append.mp hnodup').2.2 _ h _ List.mem_cons_self rfl
      have h2 := (List.nodup_cons.mp hnodup'.of_append_right).1
      obtain ⟨rfl, -, -⟩ := (List.append_cons_inj_of_notMem h1 h2).mp heq
      exact hleaves
    · have h1 : e1 ∉ P1 ++ rmwReads c e1 := fun h =>
        (List.nodup_append.mp hnodup').2.2 _ h _ List.mem_cons_self rfl
      have h2 := (List.nodup_cons.mp hnodup'.of_append_right).1
      obtain ⟨rfl, -, -⟩ := (List.append_cons_inj_of_notMem h1 h2).mp heq
      exact ⟨P1, by rw [rmwReads, if_pos hrmw]⟩
  cases hplaced with
  | inserted P1 P2 heq _ _ hleaves =>
    rw [he2 rfl]
    exact hput rfl (by simp [heq]) (by simp [heq]) hleaves
  | held P1 P2 heq _ _ hleaves =>
    rw [he2 rfl]
    refine hput rfl (by simp [heq]) (fun y hy => ?_) hleaves
    rw [heq]
    exact List.mem_append_right P1 (List.mem_cons_of_mem e1 hy)
  | lost hnot _ _ =>
    rw [he2 rfl]
    refine sourced_plain hs hwrite hplain (fun x hx => .inl (hPW hx)) (fun B x Q heq hx => ?_)
      (fun B Q heq _ => absurd (by simp [heq]) hnot)
    -- the read of `e1` is not in the causal prefix
    obtain ⟨hrmw, rfl⟩ := mem_rmwReads.mp hx
    have hA := (rmwRead_facts hs hwrite hrmw).1
    have hmem : (⟨e1.pid, e1.idx - 1⟩ : IID) ∈ e1 :: (W ++ e2 :: Z) := by
      have := hPW (by simp [heq] : (⟨e1.pid, e1.idx - 1⟩ : IID) ∈ P)
      simp only [List.mem_cons, List.mem_append] at this ⊢
      tauto
    exact absurd rfl ((List.nodup_append.mp hs.nodup).2.2 _ hA _ hmem)

/-- What the read of a pair with the write `e1` gets. -/
theorem replayedValue_write_iff (hs : ExecutionSequence c mem (A ++ e1 :: (W ++ e2 :: Z)))
    (hwrites : (c.getEvent e1).writesTo (c.getEvent e2)) (hread : (c.getEvent e2).isRead)
    (hP : P.Nodup) (hPW : P ⊆ e1 :: W) (hdelim : e1 ∈ P → delim = e1)
    (hplaced : Placed c e1 e2 delim P R)
    (hsourced : ∀ L Q, R = L ++ e2 :: Q → ∃ K, Sourced c (memoryBehind c mem A) K L ∧
      ∀ w, latest (fun w => (c.getEvent w).writesTo (c.getEvent e2)) L = some w → K w) :
    replayedValue c (memoryBehind c mem A) R e2 = some (c.getEvent e1).value ↔
      (delim = e1 → e1 ∈ P ∨ valueIn c (memoryBehind c mem A) P (c.getEvent e1).object =
        (c.getEvent e1).value) := by
  have hwrite := (Event.writesTo_iff.mp hwrites).1
  have hobj := (Event.writesTo_iff.mp hwrites).2
  obtain ⟨hnodup, hsub⟩ := nodup_placed hs hwrite hP hPW hdelim hplaced
  have hvalue {L Q : Sequence} (hR : R = L ++ e2 :: Q) :
      replayedValue c (memoryBehind c mem A) R e2 =
        some (valueIn c (memoryBehind c mem A) L (c.getEvent e1).object) := by
    obtain ⟨K, hK, hlatest⟩ := hsourced L Q hR
    rw [hR, hobj]
    refine replayedValue_read hK (fun y hy => hs.iid y (hsub ?_)) ?_ hread hlatest
    · rw [hR]
      simp only [List.mem_append, List.mem_cons, List.not_mem_nil, or_false] at hy ⊢
      tauto
    · rw [hR] at hnodup
      exact fun h => (List.nodup_append.mp hnodup).2.2 e2 h e2 List.mem_cons_self rfl
  by_cases hheld : delim = e1 → e1 ∈ P
  · obtain ⟨P1, P2, w, hR, -, -, -, hlatest, hw⟩ := latest_placed hs hwrites hheld hplaced
    refine iff_of_true ?_ fun h => .inl (hheld h)
    rw [hvalue hR, hobj, valueIn_eq_latest, hlatest]
    exact congrArg some hw
  · obtain ⟨hd, he1⟩ := Classical.not_imp.mp hheld
    have hlost : R = P ++ e2 :: rmwReads c e1 := by
      cases hplaced with
      | inserted _ _ _ hne => exact absurd hd hne
      | held _ _ heq => exact absurd (by simp [heq]) he1
      | lost => rfl
    rw [hvalue hlost, Option.some.injEq]
    exact ⟨fun h _ => .inr h, fun h => (h hd).resolve_left he1⟩

/-- The read `e1` of a pair reads the write `e2`, if that has its value. -/
theorem replayedValue_read_e1 (hs : ExecutionSequence c mem (A ++ e1 :: (W ++ e2 :: Z)))
    (hwrites : (c.getEvent e2).writesTo (c.getEvent e1)) (hread : (c.getEvent e1).isRead)
    (hP : (P ++ [e2] ++ [e1]).Nodup) (hsub : P ++ [e2] ++ [e1] ⊆ A ++ e1 :: (W ++ e2 :: Z))
    {K : IID → Prop} (hK : Sourced c (memoryBehind c mem A) K (P ++ [e2])) (he2 : K e2) :
    replayedValue c (memoryBehind c mem A) (P ++ [e2] ++ [e1]) e1 =
      some (c.getEvent e2).value := by
  have he1 : e1 ∉ P ++ [e2] := fun h => (List.nodup_append.mp hP).2.2 e1 h e1 (by simp) rfl
  have hlatest : latest (fun w => (c.getEvent w).writesTo (c.getEvent e1)) (P ++ [e2]) =
      some e2 := by rw [latest_concat, if_pos hwrites]
  rw [replayedValue_read (L := P ++ [e2]) (B := []) hK (fun y hy => hs.iid y (hsub hy)) he1 hread
    (fun w hw => by
      rw [hlatest] at hw
      cases hw
      exact he2), valueIn_eq_latest, hlatest]
  rfl

end Pair

/-- The read `e2` writes nothing behind which the read of `e1` stands. -/
theorem leavesRead_concat {P : Sequence} (hread : (c.getEvent e2).isRead) :
    LeavesRead c e1 (P ++ [e2]) ↔ LeavesRead c e1 P := by
  have hnot : ((c.getEvent e1).sameObject (c.getEvent e2) && (c.getEvent e2).isWrite) = false := by
    rw [Bool.eq_false_iff]
    intro h
    rw [Bool.and_eq_true] at h
    rw [Event.isRead_eq_false_of_isWrite h.2] at hread
    cases hread
  unfold LeavesRead
  rw [latest_concat, hnot, if_neg Bool.false_ne_true]

/-- A prefix that has lost `e1` is a start, if the read of `e1` keeps its
value. -/
theorem finish_lost {P : Sequence} (hne : e1 ≠ e2) (he1 : e1 ∉ P)
    (hleaves : LeavesRead c e1 (P ++ [e2])) :
    finish c [] e1 e2 e1 P = P ++ e2 :: rmwReads c e1 := by
  have hst : PlacedBehind c e1 e1 P (P.length + 1) _ :=
    placedBehind_placeLoop e1 (P.length + 1) P (Nat.lt_succ_self _)
  have hplace : findPlace c [] (c.getEvent e1) e1 P =
      placeLoop c [] e1 { event := c.getEvent e1, delimLoc := P.length + 1 } P := rfl
  have hlate : ¬TooLate c e1 e1 P := by
    intro ⟨A, x, B, heq, _, hmem, _⟩
    refine he1 ?_
    simp only [heq, List.mem_append, List.mem_cons, List.not_mem_nil, or_false] at hmem ⊢
    tauto
  have he1' : e1 ∉ P ++ [e2] := by simp [he1, hne]
  have hidx : (P ++ [e2]).idxOf e1 = (P ++ [e2]).length := List.idxOf_eq_length he1'
  have hkeeps (hrmw : (c.getEvent e1).isRmw) : ReadKeepsValue c e1 (P ++ [e2]) := by
    unfold ReadKeepsValue latestBefore
    rw [← take_idxOf, hidx, List.take_length]
    exact hleaves hrmw
  unfold finish
  rw [hplace]
  generalize placeLoop c [] e1 { event := c.getEvent e1, delimLoc := P.length + 1 } P = st at hst
  dsimp only
  rw [if_neg fun h => hlate (hst.late.mp h), hst.event, placeWrite, if_pos rfl]
  unfold rmwReads
  by_cases hrmw : (c.getEvent e1).isRmw
  · rw [if_pos hrmw, if_pos hrmw]
    rcases pushRmwRead_nil (c := c) e1 (P ++ [e2]) with ⟨-, hpush⟩ | ⟨hnot, -⟩
    · have hend : pushAt (P ++ [e2] ++ []) (P ++ [e2]).length ⟨e1.pid, e1.idx - 1⟩ =
          P ++ [e2] ++ [⟨e1.pid, e1.idx - 1⟩] := pushAt_append _ _ _
      rw [List.append_nil] at hend
      rw [hpush, hidx, hend, List.append_assoc]
      rfl
    · exact absurd (hkeeps hrmw) hnot
  · rw [if_neg hrmw, if_neg hrmw]

/-- The pair `e1`, `e2` of an execution: when their causal prefixes keep the
sources, or no rmw write can be read, the read of the pair gets the value of
the write exactly if the merges do not lose the write. -/
theorem hitsTarget_iff_of (hs : ExecutionSequence c mem s) (he1 : e1 ∈ s) (he2 : e2 ∈ s)
    (hlt : s.idxOf e1 < s.idxOf e2) (hpair : (c.getEvent e1).rwPair (c.getEvent e2))
    (hsource : PlainWrites c s e1 e2 ∨ KeepsSources c fuel s e1 e2) :
    HitsTarget c mem fuel s e1 e2 ↔ MergesKeepE1 c mem fuel s e1 e2 := by
  obtain ⟨A, W, Z, rfl, he1A, he2A⟩ := exists_between he2 hlt
  have hs' : ExecutionSequence c mem (A ++ e1 :: (W ++ e2 :: Z)) := hs
  have hne : e1 ≠ e2 := fun h => he2A (by simp [h])
  have hiid : ∀ e ∈ W, (c.getEvent e).iid = e := fun e he => hs.iid e (by simp [he])
  obtain ⟨-, -, hW⟩ := notMem_pair hs.nodup
  have he1W : e1 ∉ e2 :: W := by
    simp only [List.mem_cons, not_or]
    exact ⟨hne, (List.nodup_cons.mp hW).1⟩
  have hobj : (c.getEvent e1).object = (c.getEvent e2).object := by
    simp only [Event.rwPair, Event.sameObject, Bool.and_eq_true, decide_eq_true_eq] at hpair
    exact hpair.1
  have hstart := memoryBefore_startOf hs'
  have hmem : memoryBefore c mem (A ++ e1 :: (W ++ e2 :: Z)) e1 = memoryBehind c mem A :=
    memoryBefore_append he1A
  unfold HitsTarget MergesKeepE1
  rw [between_eq he1A he2A, List.cons_append, hstart, hmem]
  by_cases hwrite : (c.getEvent e1).isWrite
  · have hread : (c.getEvent e2).isRead := by
      simp only [Event.rwPair, hwrite, Event.isRead_eq_false_of_isWrite hwrite, Bool.true_and,
        Bool.false_and, Bool.or_false, Bool.and_eq_true] at hpair
      exact hpair.2
    have hwrites : (c.getEvent e1).writesTo (c.getEvent e2) := Event.writesTo_iff.mpr ⟨hwrite, hobj⟩
    have hreadOf : readOf c e1 e2 = e2 := if_pos hwrite
    have hwriteOf : writeOf c e1 e2 = e1 := if_pos hwrite
    rw [hreadOf, hwriteOf]
    -- one start
    have hone {delim : IID} {P R : Sequence}
        (hmerged : causalPrefix fuel c [] e1 e2 W = some (delim, P))
        (hback : backseq fuel c (A ++ e1 :: (W ++ e2 :: Z)) e1 e2 [] = some R) (hR : R ≠ []) :
        replayedValue c (memoryBehind c mem A) R e2 = some (c.getEvent e1).value ↔
          (delim = e1 → e1 ∈ P ∨ valueIn c (memoryBehind c mem A) P (c.getEvent e1).object =
            (c.getEvent e1).value) := by
      obtain ⟨d, P', hmerged', hP, hPW, hdelim, hplaced⟩ := exists_causalPrefix hs hback hR
      rw [hmerged] at hmerged'
      cases hmerged'
      rcases hplaced with ⟨-, hplaced⟩ | ⟨hnot, -⟩
      · refine replayedValue_write_iff hs' hwrites hread hP hPW hdelim hplaced fun L Q heq => ?_
        rcases hsource with hplain | hkeeps
        · unfold PlainWrites at hplain
          rw [if_pos hwrite, between_eq he1A he2A] at hplain
          refine ⟨_, sourced_placed hs' hwrite hplain hP hPW hdelim hplaced heq, fun w hw => ?_⟩
          obtain ⟨hw, ho⟩ := Event.writesTo_iff.mp (latest_eq_some_iff.mp hw).1
          exact .inl ⟨hw, ho.trans hobj.symm⟩
        · have hall := sourced_backseq hs hpair hkeeps hback hR
          rw [heq] at hall
          refine ⟨_, hall.of_append, fun w hw hread => ?_⟩
          have hw := (Event.writesTo_iff.mp (latest_eq_some_iff.mp hw).1).1
          rw [Event.isRead_eq_false_of_isWrite hw] at hread
          cases hread
      · exact absurd hwrite hnot
    constructor
    · intro h hwaits delim P hmerged
      have hd := (waitsForE1_iff hiid he1W hmerged).mp hwaits
      by_cases he1P : e1 ∈ P
      · exact .inl he1P
      · by_cases hleaves : LeavesRead c e1 P
        · have hback : backseq fuel c (A ++ e1 :: (W ++ e2 :: Z)) e1 e2 [] =
              some (P ++ e2 :: rmwReads c e1) := by
            have hbetween : between (A ++ e1 :: (W ++ e2 :: Z)) e1 e2 = W :=
              between_eq he1A he2A
            rw [backseq_eq fuel _ (eventIn_nil e1), hbetween, hmerged, Option.map_some,
              if_pos hwrite]
            dsimp only
            rw [hd, finish_lost hne he1P ((leavesRead_concat hread).mpr hleaves)]
          have hR : P ++ e2 :: rmwReads c e1 ≠ [] := by simp
          exact .inr (.inr (((hone hmerged hback hR).mp (h _ hback hR) hd).resolve_left he1P))
        · exact .inr (.inl hleaves)
    · intro h R hback hR
      obtain ⟨delim, P, hmerged, -, -, -, hplaced⟩ := exists_causalPrefix hs hback hR
      refine (hone hmerged hback hR).mpr fun hd => ?_
      rcases h ((waitsForE1_iff hiid he1W hmerged).mpr hd) delim P hmerged with h | h | h
      · exact .inl h
      · -- the start would be empty
        rcases hplaced with ⟨-, hplaced⟩ | ⟨hnot, -⟩
        · cases hplaced with
          | inserted _ _ _ hne => exact absurd hd hne
          | held _ _ heq => exact .inl (by simp [heq])
          | lost _ _ hleaves => exact absurd ((leavesRead_concat hread).mp hleaves) h
        · exact absurd hwrite hnot
      · exact .inr h
  · have hread : (c.getEvent e1).isRead ∧ (c.getEvent e2).isWrite := by
      simp only [Event.rwPair, hwrite, Bool.false_and, Bool.false_or, Bool.and_eq_true] at hpair
      exact hpair.2
    have hreadOf : readOf c e1 e2 = e1 := if_neg hwrite
    have hwriteOf : writeOf c e1 e2 = e2 := if_neg hwrite
    rw [hreadOf, hwriteOf]
    refine iff_of_true (fun R hback hR => ?_) ?_
    swap
    · rintro ⟨p, _, hawaits⟩
      exact absurd hawaits.1 hwrite
    obtain ⟨hnodup, hsub⟩ := nodup_backseq hs hback hR
    obtain ⟨delim, P, -, -, -, -, ⟨hnot, -⟩ | ⟨-, -, rfl⟩⟩ := exists_causalPrefix hs hback hR
    · exact absurd hnot hwrite
    · have hwrites : (c.getEvent e2).writesTo (c.getEvent e1) :=
        Event.writesTo_iff.mpr ⟨hread.2, hobj.symm⟩
      rcases hsource with hplain | hkeeps
      · unfold PlainWrites at hplain
        rw [if_neg hwrite] at hplain
        have hplain' := hplain e2 (by simp) hobj.symm
        have hK : Sourced c (memoryBehind c mem A) (· = e2) (P ++ [e2]) := by
          constructor
          · intro B x Q _ hx hread'
            rw [hx, Event.isRead_eq_false_of_isWrite hread.2] at hread'
            cases hread'
          · intro B w Q _ hw hrmw
            rw [hw, hplain'] at hrmw
            cases hrmw
        exact replayedValue_read_e1 hs' hwrites hread.1 hnodup hsub hK rfl
      · have hall := sourced_backseq hs hpair hkeeps hback hR
        refine replayedValue_read_e1 hs' hwrites hread.1 hnodup hsub hall.of_append fun h => ?_
        rw [Event.isRead_eq_false_of_isWrite hread.2] at h
        cases h

/-- A store of `x`; a thread that loads `x`, stores `z`, joins a thread with a
store of `y` and a load of `z`, and loads `y` and `x`. -/
def joinedStoreAndLoad : Container :=
  let x : SymAddrSize := ⟨.global 1, 0, 1⟩
  let y : SymAddrSize := ⟨.global 2, 0, 1⟩
  let z : SymAddrSize := ⟨.global 3, 0, 1⟩
  { threads :=
      [{ events := [{ Event.makeWrite x [1] with iid := ⟨0, 0⟩ }] },
       { events :=
          [{ Event.makeRead x with iid := ⟨1, 0⟩, value := 1 },
           { Event.makeWrite z [2] with iid := ⟨1, 1⟩ },
           { Event.makeJoin 2 with iid := ⟨1, 2⟩ },
           { Event.makeRead y with iid := ⟨1, 3⟩, value := 1 },
           { Event.makeRead x with iid := ⟨1, 4⟩, value := 1 }] },
       { events :=
          [{ Event.makeWrite y [1] with iid := ⟨2, 0⟩ },
           { Event.makeRead z with iid := ⟨2, 1⟩, value := 2 }] }] }

end Sequence

end ViEqui
