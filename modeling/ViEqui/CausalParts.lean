import ViEqui.BackseqSource
import ViEqui.RecordedValues

/-!
# The causal prefixes

`causal_prefix` scans the events between `e1` and `e2` backwards, and collects
three prefixes.  Each of them waits for the sources of its reads.

* `TakesSources`: no write that one of them waits for is taken by another one
  only.
* `PartFits`: what the events that are collected so far have read.
* `partFits_scan`: in an execution that takes sources, the reads of each prefix
  have their sources in it, or wait for them.
-/

namespace ViEqui

open AssocMap Precedence

namespace Sequence

variable {c : Container} {mem : Memory} {e1 e2 : IID}

/-! ## The scan -/

def CausalState.parts (st : CausalState) : List CausalPart := [st.join, st.joinE1, st.causal]

/-- The loop of `causal_prefix` over the events `T`. -/
def scan (c : Container) (e1 e2 : IID) (T : Sequence) : CausalState :=
  T.reverse.foldl (causalStep c [] e1 e2)
    { causal := { threads := [e2.pid] }, e1Delim := e2 }

theorem scan_cons (y : IID) (T : Sequence) :
    scan c e1 e2 (y :: T) = causalStep c [] e1 e2 (scan c e1 e2 T) y := by
  unfold scan
  rw [List.reverse_cons, List.foldl_append]
  rfl

/-- A write that is taken into one of the prefixes because of its thread is
taken into all those that wait for it. -/
def TakesSources (c : Container) (e1 e2 : IID) (W : Sequence) : Prop :=
  ∀ R y T, W = R ++ y :: T → (c.getEvent y).isWrite →
    failedCmpxchg c [] (c.getEvent y) = false →
      (∃ q ∈ (scan c e1 e2 T).parts, y.pid ∈ q.threads) →
        ∀ p ∈ (scan c e1 e2 T).parts, (c.getEvent y).object ∈ p.objects → y.pid ∈ p.threads

/-! ## One part -/

/-- The reads of a part have read from their latest write in it; the others
wait for their objects, which have these values in `V`. -/
def PartFits (c : Container) (V : Object → Value) (p : CausalPart) : Prop :=
  ∀ P x Q, p.events = P ++ x :: Q → (c.getEvent x).isRead →
    match latest (fun w => (c.getEvent w).writesTo (c.getEvent x)) P with
    | some w => (c.getEvent w).value = (c.getEvent x).value
    | none => (c.getEvent x).object ∈ p.objects ∧ V (c.getEvent x).object = (c.getEvent x).value

section Step

variable {V V' : Object → Value} {p p' : CausalPart} {y : IID}

/-- `V'` is `V` behind the event `y`, which has happened there. -/
structure Happens (c : Container) (V : Object → Value) (y : IID) (V' : Object → Value) : Prop where
  value : ∀ o, V' o = if (c.getEvent y).isWrite ∧ (c.getEvent y).object = o
    then (c.getEvent y).value else V o
  read : (c.getEvent y).isRead → V (c.getEvent y).object = (c.getEvent y).value

theorem Happens.value_self (h : Happens c V y V') (hw : (c.getEvent y).isWrite) :
    V' (c.getEvent y).object = (c.getEvent y).value := by
  rw [h.value, if_pos ⟨hw, rfl⟩]

theorem Happens.value_of_not (h : Happens c V y V') {o : Object}
    (ho : ¬((c.getEvent y).isWrite ∧ (c.getEvent y).object = o)) : V' o = V o := by
  rw [h.value, if_neg ho]

/-- A part that does not take `y`. -/
theorem PartFits.skip (h : PartFits c V' p) (hy : Happens c V y V')
    (hwait : (c.getEvent y).isWrite → (c.getEvent y).object ∈ p.objects →
      V (c.getEvent y).object = (c.getEvent y).value)
    (hevents : p'.events = p.events) (hobjects : p'.objects = p.objects) :
    PartFits c V p' := by
  intro P x Q heq hread
  rw [hevents] at heq
  have hx := h P x Q heq hread
  cases hlatest : latest (fun w => (c.getEvent w).writesTo (c.getEvent x)) P with
  | some w =>
    rw [hlatest] at hx
    exact hx
  | none =>
    rw [hlatest] at hx
    obtain ⟨hmem, hvalue⟩ := hx
    refine ⟨hobjects ▸ hmem, ?_⟩
    by_cases hwrite : (c.getEvent y).isWrite ∧ (c.getEvent y).object = (c.getEvent x).object
    · rw [← hwrite.2] at hmem hvalue ⊢
      rw [hwait hwrite.1 hmem, ← hvalue, hy.value_self hwrite.1]
    · rw [← hy.value_of_not hwrite]
      exact hvalue

/-- A part that takes `y`. -/
theorem PartFits.take (h : PartFits c V' p) (hy : Happens c V y V')
    (hevents : p'.events = y :: p.events)
    (hread : (c.getEvent y).isRead → (c.getEvent y).object ∈ p'.objects)
    (hkeep : ∀ o ∈ p.objects, ((c.getEvent y).isWrite → o ≠ (c.getEvent y).object) →
      o ∈ p'.objects) :
    PartFits c V p' := by
  intro P x Q heq hreadx
  rw [hevents] at heq
  cases P with
  | nil =>
    obtain ⟨rfl, -⟩ := List.cons.inj heq
    exact ⟨hread hreadx, hy.read hreadx⟩
  | cons z P =>
    rw [List.cons_append] at heq
    obtain ⟨hyz, hrest⟩ := List.cons.inj heq
    subst hyz
    have hx := h P x Q hrest hreadx
    rw [latest_cons]
    cases hlatest : latest (fun w => (c.getEvent w).writesTo (c.getEvent x)) P with
    | some w =>
      rw [hlatest] at hx
      exact hx
    | none =>
      rw [hlatest] at hx
      obtain ⟨hmem, hvalue⟩ := hx
      cases hwrites : (c.getEvent y).writesTo (c.getEvent x) with
      | true =>
        obtain ⟨hwrite, hobj⟩ := Event.writesTo_iff.mp hwrites
        show (c.getEvent y).value = (c.getEvent x).value
        rw [← hy.value_self hwrite, hobj]
        exact hvalue
      | false =>
        have hnot : ¬((c.getEvent y).isWrite ∧ (c.getEvent y).object = (c.getEvent x).object) :=
          fun hw => by rw [Event.writesTo_iff.mpr hw] at hwrites; cases hwrites
        refine ⟨hkeep _ hmem fun hw ho => hnot ⟨hw, ho.symm⟩, ?_⟩
        rw [← hy.value_of_not hnot]
        exact hvalue

theorem filter_ne_keeps {o o' : Object} {l : List Object} (h : o ∈ l) (hne : o ≠ o') :
    o ∈ l.filter (· ≠ o') := List.mem_filter.mpr ⟨h, by simpa using hne⟩

theorem addCausalEvent_snd {event : Event} {p : CausalPart} :
    (Sequence.addCausalEvent event p).2 = true ↔ event.iid.pid ∈ p.threads := by
  unfold Sequence.addCausalEvent
  split
  · next h => exact iff_of_true rfl h
  · next h => exact iff_of_false Bool.false_ne_true h

/-- `add_causal_event`. -/
theorem PartFits.addCausalEvent (h : PartFits c V' p) (hy : Happens c V y V')
    (hiid : (c.getEvent y).iid = y)
    (hwait : (c.getEvent y).isWrite → (c.getEvent y).object ∈ p.objects → y.pid ∉ p.threads →
      V (c.getEvent y).object = (c.getEvent y).value) :
    PartFits c V (addCausalEvent (c.getEvent y) p).1 := by
  unfold Sequence.addCausalEvent
  rw [hiid]
  split
  · refine h.take hy rfl (fun hread => ?_) (fun o ho hne => ?_)
    · rw [if_pos hread]
      exact List.mem_cons_self
    · dsimp only
      split
      · exact List.mem_cons_of_mem _ ho
      · split
        · next hwrite => exact filter_ne_keeps ho (hne hwrite)
        · exact ho
  · next hpid => exact h.skip hy (fun hw ho => hwait hw ho hpid) rfl rfl

/-- `prefix_rf_source`. -/
theorem PartFits.prefixRfSource (h : PartFits c V' p) (hy : Happens c V y V')
    (hiid : (c.getEvent y).iid = y) (hwrite : (c.getEvent y).isWrite) :
    PartFits c V (prefixRfSource (c.getEvent y) p).1 := by
  unfold Sequence.prefixRfSource
  rw [hiid]
  split
  · refine h.take hy rfl (fun hread => ?_) (fun o ho hne => filter_ne_keeps ho (hne hwrite))
    rw [Event.isRead_eq_false_of_isWrite hwrite] at hread
    cases hread
  · next hobj => exact h.skip hy (fun _ ho => absurd ho hobj) rfl rfl

end Step

/-! ## All parts -/

theorem forall_parts {st : CausalState} {q : CausalPart → Prop} :
    (∀ p ∈ st.parts, q p) ↔ q st.join ∧ q st.joinE1 ∧ q st.causal := by
  simp [CausalState.parts]

/-- A spawn or join changes the threads only. -/
theorem parts_update (event : Event) (st : CausalState) :
    ∀ p' ∈ (updateThreadCausality event e1 e2 st).parts,
      ∃ p ∈ st.parts, p'.events = p.events ∧ p'.objects = p.objects := by
  have hjoin : st.join ∈ st.parts := by simp [CausalState.parts]
  have hjoinE1 : st.joinE1 ∈ st.parts := by simp [CausalState.parts]
  have hcausal : st.causal ∈ st.parts := by simp [CausalState.parts]
  unfold updateThreadCausality
  dsimp only
  generalize (if event.type = .spawn then event.iid.pid else event.object.1) = before
  generalize (if event.type = .spawn then event.object.1 else event.iid.pid) = after
  repeat' split
  all_goals
    rw [forall_parts]
    exact ⟨⟨_, hjoin, rfl, rfl⟩, ⟨_, hjoinE1, rfl, rfl⟩, ⟨_, hcausal, rfl, rfl⟩⟩

/-- A step puts its event in front of the events of a part, or does not change
them. -/
theorem events_step {st : CausalState} {y : IID} (hiid : (c.getEvent y).iid = y) :
    ∀ p' ∈ (causalStep c [] e1 e2 st y).parts,
      ∃ p ∈ st.parts, p'.events = p.events ∨ p'.events = y :: p.events := by
  have hjoin : st.join ∈ st.parts := by simp [CausalState.parts]
  have hjoinE1 : st.joinE1 ∈ st.parts := by simp [CausalState.parts]
  have hcausal : st.causal ∈ st.parts := by simp [CausalState.parts]
  have hadd (p : CausalPart) : (addCausalEvent (c.getEvent y) p).1.events = p.events ∨
      (addCausalEvent (c.getEvent y) p).1.events = y :: p.events := by
    unfold addCausalEvent
    rw [hiid]
    split
    · exact .inr rfl
    · exact .inl rfl
  have hsource (p : CausalPart) : (prefixRfSource (c.getEvent y) p).1.events = p.events ∨
      (prefixRfSource (c.getEvent y) p).1.events = y :: p.events := by
    unfold prefixRfSource
    rw [hiid]
    split
    · exact .inr rfl
    · exact .inl rfl
  have hsame (p : CausalPart) (hp : p ∈ st.parts) :
      ∃ q ∈ st.parts, p.events = q.events ∨ p.events = y :: q.events := ⟨p, hp, .inl rfl⟩
  unfold causalStep
  rw [eventIn_nil]
  dsimp only
  split
  · intro p' hp'
    obtain ⟨p, hp, hevents, -⟩ := parts_update _ st p' hp'
    exact ⟨p, hp, .inl hevents⟩
  · split
    · exact hsame
    · split
      · exact forall_parts.mpr ⟨⟨_, hjoin, hadd _⟩, ⟨_, hjoinE1, hadd _⟩, ⟨_, hcausal, hadd _⟩⟩
      · split
        · exact forall_parts.mpr
            ⟨⟨_, hjoin, hsource _⟩, ⟨_, hjoinE1, hsource _⟩, ⟨_, hcausal, hsource _⟩⟩
        · exact hsame

/-- The parts have events of the scan, in their order. -/
theorem sublist_scan (e1 e2 : IID) {T : Sequence} (hiid : ∀ e ∈ T, (c.getEvent e).iid = e) :
    ∀ p ∈ (scan c e1 e2 T).parts, p.events.Sublist T := by
  induction T with
  | nil =>
    exact forall_parts.mpr ⟨List.Sublist.refl _, List.Sublist.refl _, List.Sublist.refl _⟩
  | cons y T ih =>
    obtain ⟨hy, hT⟩ := List.forall_mem_cons.mp hiid
    rw [scan_cons]
    intro p' hp'
    obtain ⟨p, hp, hevents | hevents⟩ := events_step hy p' hp'
    · rw [hevents]
      exact (ih hT p hp).trans (List.sublist_cons_self y T)
    · rw [hevents]
      exact (ih hT p hp).cons_cons y

/-- The delimiter of `e1` is an event of the scan, or `e2`. -/
theorem e1Delim_scan {T : Sequence} (hiid : ∀ e ∈ T, (c.getEvent e).iid = e) :
    (scan c e1 e2 T).e1Delim ∈ e2 :: T := by
  induction T with
  | nil => exact List.mem_cons_self
  | cons y T ih =>
    obtain ⟨hy, hT⟩ := List.forall_mem_cons.mp hiid
    have hold : (scan c e1 e2 T).e1Delim ∈ e2 :: T := ih hT
    obtain ⟨hjoin, -, hcausal⟩ := forall_parts.mp (sublist_scan e1 e2 hT)
    rw [scan_cons]
    generalize scan c e1 e2 T = st at hold hjoin hcausal ⊢
    have hwiden {d : IID} (h : d ∈ e2 :: T) : d ∈ e2 :: y :: T := by
      simp only [List.mem_cons] at h ⊢
      tauto
    have hhead {p : CausalPart} {d : IID} (hp : p.events.Sublist T) (hd : d ∈ e2 :: T) :
        p.headD d ∈ e2 :: T := by
      unfold CausalPart.headD
      cases hevents : p.events with
      | nil => exact hd
      | cons a l => exact List.mem_cons_of_mem e2 (hp.subset (by simp [hevents]))
    have hself : y ∈ e2 :: y :: T := by simp
    unfold causalStep
    rw [eventIn_nil]
    dsimp only
    split
    · unfold updateThreadCausality
      dsimp only
      repeat' split
      all_goals first
        | exact hwiden hold
        | exact hwiden (hhead hcausal hold)
        | exact hwiden (hhead hjoin (hhead hcausal hold))
    · rw [hy]
      repeat' split
      all_goals first
        | exact hwiden hold
        | exact hself

section Step

variable {V V' : Object → Value} {y : IID} {st : CausalState}

/-- One step of the scan. -/
theorem partFits_step (hfits : ∀ p ∈ st.parts, PartFits c V' p) (hy : Happens c V y V')
    (hiid : (c.getEvent y).iid = y)
    (hfailed : (c.getEvent y).isWrite → failedCmpxchg c [] (c.getEvent y) →
      V (c.getEvent y).object = (c.getEvent y).value)
    (htakes : (c.getEvent y).isWrite → failedCmpxchg c [] (c.getEvent y) = false →
      (∃ q ∈ st.parts, y.pid ∈ q.threads) →
        ∀ p ∈ st.parts, (c.getEvent y).object ∈ p.objects → y.pid ∈ p.threads) :
    ∀ p ∈ (causalStep c [] e1 e2 st y).parts, PartFits c V p := by
  have hskip (hw : ¬(c.getEvent y).isWrite) {p' : CausalPart}
      (hp' : ∃ p ∈ st.parts, p'.events = p.events ∧ p'.objects = p.objects) :
      PartFits c V p' := by
    obtain ⟨p, hp, hevents, hobjects⟩ := hp'
    exact (hfits p hp).skip hy (fun h => absurd h hw) hevents hobjects
  unfold causalStep
  rw [eventIn_nil]
  dsimp only
  split
  case isTrue htype =>
    intro p' hp'
    refine hskip (fun hw => ?_) (parts_update _ st p' hp')
    simp only [Event.isWrite, Bool.and_eq_true, decide_eq_true_eq] at hw
    rcases htype with ht | ht
    · rw [hw.2] at ht
      cases ht
    · rw [hw.2] at ht
      cases ht
  case isFalse =>
    split
    case isTrue hglobal =>
      refine fun p' hp' => hskip (fun hw => ?_) ⟨p', hp', rfl, rfl⟩
      simp only [Event.isWrite, Bool.and_eq_true] at hw
      rw [hw.1] at hglobal
      cases hglobal
    case isFalse =>
      have hjoin : st.join ∈ st.parts := by simp [CausalState.parts]
      have hjoinE1 : st.joinE1 ∈ st.parts := by simp [CausalState.parts]
      have hcausal : st.causal ∈ st.parts := by simp [CausalState.parts]
      split
      case isTrue hadded =>
        -- the write is taken because of its thread
        have hthread : ∃ q ∈ st.parts, y.pid ∈ q.threads := by
          simp only [Bool.or_eq_true, addCausalEvent_snd, hiid] at hadded
          rcases hadded with (h | h) | h
          · exact ⟨_, hjoin, h⟩
          · exact ⟨_, hjoinE1, h⟩
          · exact ⟨_, hcausal, h⟩
        have hadd (p : CausalPart) (hp : p ∈ st.parts) :
            PartFits c V (addCausalEvent (c.getEvent y) p).1 := by
          refine (hfits p hp).addCausalEvent hy hiid fun hw ho hpid => ?_
          cases hf : failedCmpxchg c [] (c.getEvent y) with
          | true => exact hfailed hw hf
          | false => exact absurd (htakes hw hf hthread p hp ho) hpid
        exact forall_parts.mpr ⟨hadd _ hjoin, hadd _ hjoinE1, hadd _ hcausal⟩
      case isFalse =>
        split
        case isTrue hw =>
          simp only [Bool.and_eq_true] at hw
          have hadd (p : CausalPart) (hp : p ∈ st.parts) :
              PartFits c V (prefixRfSource (c.getEvent y) p).1 :=
            (hfits p hp).prefixRfSource hy hiid hw.1
          exact forall_parts.mpr ⟨hadd _ hjoin, hadd _ hjoinE1, hadd _ hcausal⟩
        case isFalse hw =>
          refine fun p hp => (hfits p hp).skip hy (fun hwrite _ => hfailed hwrite ?_) rfl rfl
          by_contra hf
          exact hw (by simp [hwrite, hf])

end Step

/-! ## The scan of an execution -/

section Execution

variable {L Z : Sequence}

/-- The event behind `L` happens in the memory behind `L`. -/
theorem happens_of_execution {y : IID} (hs : ExecutionSequence c mem (L ++ y :: Z)) :
    Happens c (valueIn c mem L) y (valueIn c mem (L ++ [y])) :=
  ⟨fun o => valueIn_concat L y o, fun hread => (hs.read_value hread).symm⟩

/-- A compare-exchange that fails writes what it has read. -/
theorem value_of_failedCmpxchg {y : IID} (hs : ExecutionSequence c mem (L ++ y :: Z))
    (hwrite : (c.getEvent y).isWrite) (hf : failedCmpxchg c [] (c.getEvent y)) :
    valueIn c mem L (c.getEvent y).object = (c.getEvent y).value := by
  have hiid : (c.getEvent y).iid = y := hs.iid y (by simp)
  unfold failedCmpxchg at hf
  rw [eventIn_nil, hiid] at hf
  simp only [Bool.and_eq_true, decide_eq_true_eq] at hf
  obtain ⟨⟨hrmw, hop⟩, hne⟩ := hf
  have hw : c.isRmwWrite y := by simp [Container.isRmwWrite, hwrite, hrmw]
  obtain ⟨L', rfl, hown, hvalue⟩ := hs.rmwWrite_value hw
  obtain ⟨hobject, hexpected⟩ := hs.halves y (by simp) hw
  have hread := (Container.isOwnRmwRead_iff.mp hown).1
  have hnotwrite : ¬(c.getEvent ⟨y.pid, y.idx - 1⟩).isWrite := fun h => by
    rw [Event.isRead_eq_false_of_isWrite h] at hread
    cases hread
  have hs' : ExecutionSequence c mem (L' ++ ⟨y.pid, y.idx - 1⟩ :: y :: Z) := by
    simpa using hs
  rw [valueIn_concat, if_neg fun h => hnotwrite h.1, ← hobject, ← hs'.read_value hread, hvalue,
    hop, computeModifiedValue, ← hexpected, if_neg hne]

/-- In an execution that takes sources, the reads of the prefixes have their
sources in them, or wait for them. -/
theorem partFits_scan {R T : Sequence} (hs : ExecutionSequence c mem (L ++ T ++ Z))
    (htakes : TakesSources c e1 e2 (R ++ T)) :
    ∀ p ∈ (scan c e1 e2 T).parts, PartFits c (valueIn c mem L) p := by
  induction T generalizing L R with
  | nil =>
    have hnil (p : CausalPart) (hp : p.events = []) : PartFits c (valueIn c mem L) p := by
      intro P x Q heq
      rw [hp] at heq
      simp at heq
    exact forall_parts.mpr ⟨hnil _ rfl, hnil _ rfl, hnil _ rfl⟩
  | cons y T ih =>
    have hs' : ExecutionSequence c mem (L ++ y :: (T ++ Z)) := by simpa using hs
    have hT := ih (R := R ++ [y]) (L := L ++ [y]) (by simpa using hs) (by simpa using htakes)
    rw [scan_cons]
    exact partFits_step hT (happens_of_execution hs') (hs'.iid y (by simp))
      (value_of_failedCmpxchg hs') (htakes R y T rfl)

end Execution

/-! ## Reads that fit -/

/-- The source of `x` in `P`, or the memory `mem`, has the recorded value of
`x`. -/
def ReadFits (c : Container) (mem : Memory) (P : Sequence) (x : IID) : Prop :=
  match source c P x with
  | some w => (c.getEvent w).value = (c.getEvent x).value
  | none => getD mem (c.getEvent x).object 0 = (c.getEvent x).value

/-- All reads of `P` fit. -/
def ReadsFit (c : Container) (mem : Memory) (P : Sequence) : Prop :=
  ∀ x ∈ P, (c.getEvent x).isRead → ReadFits c mem P x

/-- The reads of the object `o` in `P` have a source in it. -/
def HasSources (c : Container) (o : Object) (P : Sequence) : Prop :=
  ∀ x ∈ P, (c.getEvent x).isRead → (c.getEvent x).object = o → source c P x ≠ none

theorem source_eq_latest {A B : Sequence} {x : IID} (hx : x ∉ A) :
    source c (A ++ x :: B) x =
      latest (fun w => (c.getEvent w).writesTo (c.getEvent x)) A := by
  unfold source
  rw [if_pos (by simp)]
  exact latestBefore_append (fun y hy => by simpa using fun h : y = x => hx (h ▸ hy)) (by simp)

theorem exists_split_mem {P : Sequence} (hP : P.Nodup) {x : IID} (hx : x ∈ P) :
    ∃ A B, P = A ++ x :: B ∧ x ∉ A := by
  obtain ⟨A, B, rfl, hA⟩ := List.eq_append_cons_of_mem hx
  exact ⟨A, B, rfl, hA⟩

/-- The part with the write `e1`, if it waits for it. -/
def withE1 (c : Container) (e1 : IID) (p : CausalPart) : CausalPart :=
  if (c.getEvent e1).isWrite then (addSourceE1 (c.getEvent e1) e1 p).1 else p

section Parts

variable {A W Z : Sequence} {p : CausalPart}

/-- The part waits for the write `e1`. -/
def AwaitsE1 (c : Container) (e1 : IID) (p : CausalPart) : Prop :=
  (c.getEvent e1).isWrite ∧ (c.getEvent e1).object ∈ p.objects

theorem events_withE1 (c : Container) (e1 : IID) (p : CausalPart) :
    AwaitsE1 c e1 p ∧ (withE1 c e1 p).events = e1 :: p.events ∨
      ¬AwaitsE1 c e1 p ∧ (withE1 c e1 p).events = p.events := by
  unfold AwaitsE1 withE1 addSourceE1
  by_cases hw : (c.getEvent e1).isWrite
  · by_cases ho : (c.getEvent e1).object ∈ p.objects
    · simp [hw, ho]
    · simp [hw, ho]
  · simp [hw]

theorem sublist_withE1 (hsub : p.events.Sublist W) :
    (withE1 c e1 p).events.Sublist (e1 :: W) := by
  rcases events_withE1 c e1 p with ⟨-, h⟩ | ⟨-, h⟩
  · rw [h]
    exact hsub.cons_cons e1
  · rw [h]
    exact hsub.trans (List.sublist_cons_self e1 W)

/-- The reads of a part with `e1` fit the memory before `e1`, and those of the
object of `e1` have a source if the part does not wait for `e1`. -/
theorem readsFit_withE1 (hs : ExecutionSequence c mem (A ++ e1 :: (W ++ Z)))
    (hsub : p.events.Sublist W) (hp : PartFits c (valueIn c mem (A ++ [e1])) p) :
    ReadsFit c (memoryBehind c mem A) (withE1 c e1 p).events ∧
      ((c.getEvent e1).isWrite → ¬AwaitsE1 c e1 p →
        HasSources c (c.getEvent e1).object (withE1 c e1 p).events) := by
  have hnodup : (e1 :: W).Nodup := by
    have := hs.nodup.of_append_right
    rw [← List.cons_append] at this
    exact this.of_append_left
  have hevents : (withE1 c e1 p).events.Nodup := hnodup.sublist (sublist_withE1 hsub)
  rcases events_withE1 c e1 p with ⟨⟨hwrite, hobj⟩, h⟩ | ⟨hnot, h⟩
  · rw [h] at hevents ⊢
    refine ⟨fun x hx hread => ?_, fun _ hno => absurd ⟨hwrite, hobj⟩ hno⟩
    have hne : x ≠ e1 := by
      rintro rfl
      rw [Event.isRead_eq_false_of_isWrite hwrite] at hread
      cases hread
    obtain ⟨P, Q, hsplit, hxP⟩ :=
      exists_split_mem hevents.of_cons ((List.mem_cons.mp hx).resolve_left hne)
    have hfits := hp P x Q hsplit hread
    rw [hsplit, ← List.cons_append, ReadFits, source_eq_latest (by simp [hne, hxP]), latest_cons]
    cases hlatest : latest (fun w => (c.getEvent w).writesTo (c.getEvent x)) P with
    | some w =>
      rw [hlatest] at hfits
      exact hfits
    | none =>
      rw [hlatest] at hfits
      obtain ⟨-, hvalue⟩ := hfits
      rw [valueIn_concat] at hvalue
      cases hwrites : (c.getEvent e1).writesTo (c.getEvent x) with
      | true =>
        rw [if_pos (Event.writesTo_iff.mp hwrites)] at hvalue
        exact hvalue
      | false =>
        rw [if_neg fun hw => by rw [Event.writesTo_iff.mpr hw] at hwrites; cases hwrites]
          at hvalue
        exact hvalue
  · rw [h] at hevents ⊢
    -- no read waits for the object of `e1`
    have hother (P : Sequence) (x : IID) (Q : Sequence) (hsplit : p.events = P ++ x :: Q)
        (hread : (c.getEvent x).isRead)
        (hnone : latest (fun w => (c.getEvent w).writesTo (c.getEvent x)) P = none) :
        ¬((c.getEvent e1).isWrite ∧ (c.getEvent e1).object = (c.getEvent x).object) ∧
          valueIn c mem (A ++ [e1]) (c.getEvent x).object = (c.getEvent x).value := by
      have hfits := hp P x Q hsplit hread
      rw [hnone] at hfits
      exact ⟨fun ⟨hw, ho⟩ => hnot ⟨hw, ho ▸ hfits.1⟩, hfits.2⟩
    constructor
    · intro x hx hread
      obtain ⟨P, Q, hsplit, hxP⟩ := exists_split_mem hevents hx
      have hfits := hp P x Q hsplit hread
      rw [hsplit, ReadFits, source_eq_latest hxP]
      cases hlatest : latest (fun w => (c.getEvent w).writesTo (c.getEvent x)) P with
      | some w =>
        rw [hlatest] at hfits
        exact hfits
      | none =>
        obtain ⟨hne, hvalue⟩ := hother P x Q hsplit hread hlatest
        rw [valueIn_concat, if_neg hne] at hvalue
        exact hvalue
    · intro hwrite _ x hx hread hobj hnone
      obtain ⟨P, Q, hsplit, hxP⟩ := exists_split_mem hevents hx
      rw [hsplit, source_eq_latest hxP] at hnone
      exact (hother P x Q hsplit hread hnone).1 ⟨hwrite, hobj.symm⟩

end Parts

end Sequence

end ViEqui
