import ViEqui.Tso.HasCycle

/-!
# Robustness

What `has_cycle` of `src/TSOTraceBuilder.cpp` decides about a recorded
execution.

* `Stopped.before`: when the loop has ended, an instruction that has not run
  requires another one that has not run, so no attempt gets there.
* `Stopped.waiting`: of the blocked processes one waits with a store.
* `hasCycle_others`: the result is right about the orders in which instructions
  come after what their clocks contain of other processes.
* `decides_iff`: it is right about all that the clocks contain if no update has
  an instruction of its own process behind its store in its clock, or else there
  is no order anyway.
-/

namespace ViEqui.Tso

open VectorClock Attempts Relation

namespace Execution

/-! ## Positions of a clock -/

theorem le_of_past {x : Execution} {a i : Nat} (h : ReflTransGen x.Edge a i) : a ≤ i := by
  induction h with
  | refl => exact Nat.le_refl _
  | tail _ hedge ih =>
    obtain ⟨_, _, _, _, hlt, _⟩ := hedge
    omega

/-- The component of a clock is the number of an event that is not later. -/
theorem event_of_clock {x : Execution} (h : x.Recorded) {i : Nat} {e : RecordedEvent}
    (hget : x.events[i]? = some e) {pid : Nat} (hpos : 0 < get e.clock pid) :
    ∃ (j : Nat) (f : RecordedEvent), x.events[j]? = some f ∧ j ≤ i ∧ f.iid.pid = pid ∧
      f.iid.idx = get e.clock pid ∧ ReflTransGen x.Edge j i := by
  have hclock : x.clockAt i pid = get e.clock pid := by
    unfold clockAt
    rw [List.getD_eq_getElem?_getD, hget, Option.getD_some]
  obtain ⟨j, hpast, hpid, hidx⟩ := h.sound i pid (hclock.symm ▸ hpos)
  have hle := le_of_past hpast
  have hlt := (List.getElem?_eq_some_iff.mp hget).1
  have hj : x.events[j]? = some x.events[j] := List.getElem?_eq_getElem (by omega)
  refine ⟨j, _, hj, hle, ?_, ?_, hpast⟩
  · rw [← hpid, pidAt, List.getD_eq_getElem?_getD, hj, Option.getD_some]
  · rw [← hclock, ← hidx, idxAt, List.getD_eq_getElem?_getD, hj, Option.getD_some]

/-- An event of a process is among its instructions. -/
theorem idx_le_total {x : Execution} (h : x.Recorded) {i : Nat} {e : RecordedEvent}
    (hget : x.events[i]? = some e) : e.iid.idx ≤ x.ranIn e.iid.pid x.events.length := by
  have hidx := h.idx_eq i e hget
  have hpos := h.size_pos e (List.mem_of_getElem? hget)
  have hsucc := ranIn_succ e.iid.pid hget
  rw [if_pos rfl] at hsucc
  have := x.ranIn_le_total e.iid.pid (i + 1)
  omega

theorem clock_le_total {x : Execution} (h : x.Recorded) {e : RecordedEvent} (he : e ∈ x.events)
    (pid : Nat) : get e.clock pid ≤ x.ranIn pid x.events.length := by
  rcases Nat.eq_zero_or_pos (get e.clock pid) with hzero | hpos
  · rw [hzero]
    exact Nat.zero_le _
  · obtain ⟨i, hget⟩ := List.getElem?_of_mem he
    obtain ⟨j, f, hf, _, hpid, hidx, _⟩ := event_of_clock h hget hpos
    rw [← hidx, ← hpid]
    exact idx_le_total h hf

/-- What an instruction waits for is an instruction. -/
theorem isInstr_of_contains {x : Execution} (h : x.Recorded) {p k q m : Nat} (hq : q ≠ p)
    (hpos : 0 < m) (hcontains : x.Contains (p, k) (q, m)) : x.IsInstr (q, m) := by
  refine (isInstr_iff h).mpr ⟨hpos, ?_⟩
  rcases hcontains with ⟨e, he, _, hle⟩ | ⟨u, hu, _, hle⟩
  · dsimp only at hle
    rw [get_put, if_neg (by omega)] at hle
    exact Nat.le_trans hle (clock_le_total h he _)
  · exact Nat.le_trans hle (clock_le_total h hu _)

/-- The store of an update is an instruction. -/
theorem isInstr_of_updates {x : Execution} (h : x.Recorded) {u : RecordedEvent}
    (hu : u ∈ x.events) {p k : Nat} (hupdates : Updates p k u) : x.IsInstr (p, k) := by
  obtain ⟨i, hget⟩ := List.getElem?_of_mem hu
  obtain ⟨j, e, he, _, heq, hpid, _⟩ := h.store i u hget (by rw [hupdates.1]; omega)
  have hpos := h.size_pos e (List.mem_of_getElem? he)
  have hidx : e.iid.idx = k := by rw [heq, hupdates.2]
  refine ⟨e, List.mem_of_getElem? he, ?_, ?_, ?_⟩
  · have := hupdates.1
    dsimp only
    omega
  · exact Nat.le_of_eq hidx
  · dsimp only
    omega

/-! ## The end of the loop -/

theorem mustWait_eq_true {x : Execution} {procs : List Proc} {p : Nat} {c : Clock}
    (h : x.mustWait procs p c = true) :
    ∃ i, i < x.threads ∧ i ≠ p ∧ pcOf procs i < get c (2 * i) := by
  obtain ⟨i, hi, hwait⟩ := List.any_eq_true.mp h
  rw [Bool.and_eq_true, decide_eq_true_eq, decide_eq_true_eq] at hwait
  exact ⟨i, List.mem_range.mp hi, hwait.1, hwait.2⟩

/-- A blocked process waits for an instruction of another one that has not
run. -/
theorem Stopped.waits {x : Execution} (hrec : x.Recorded) {procs : List Proc}
    (h : x.Stopped procs) {p : Nat} (hp : p < x.threads)
    (hblocked : (procs.getD p default).blocked = true) :
    x.IsInstr (p, pcOf procs p + 1) ∧ ∃ q, q < x.threads ∧ q ≠ p ∧
      ∃ m, pcOf procs q < m ∧ x.IsInstr (q, m) ∧ x.Contains (p, pcOf procs p + 1) (q, m) := by
  obtain ⟨e, hget, hholds, hclock⟩ := (h.each p hp).waits hblocked
  have hinstr : x.IsInstr (p, pcOf procs p + 1) := ⟨e, List.mem_of_getElem? hget, hholds⟩
  refine ⟨hinstr, ?_⟩
  rcases h.stuck p hp with hend | ⟨_, hwait⟩
  · have := ((isInstr_iff hrec).mp hinstr).2
    omega
  · obtain ⟨q, hq, hne, hlt⟩ := mustWait_eq_true hwait
    have hcontains := (hclock q hne _).mp (Nat.le_refl _)
    exact ⟨q, hq, hne, _, hlt, isInstr_of_contains hrec hne (by omega) hcontains, hcontains⟩

/-- An instruction that has not run requires one that has not run. -/
theorem Stopped.before {x : Execution} (hrec : x.Recorded) {procs : List Proc}
    (h : x.Stopped procs) {i : Instr} (hi : x.IsInstr i) (hout : pcOf procs i.1 < i.2) :
    ∃ j, x.BeforeOthers j i ∧ pcOf procs j.1 < j.2 := by
  obtain ⟨p, k⟩ := i
  have htotal := ((isInstr_iff hrec).mp hi).2
  have hp := lt_threads_of_isInstr hrec hi
  dsimp only at hout
  rcases Nat.lt_or_eq_of_le (Nat.succ_le_of_lt hout) with hlt | rfl
  · -- the next instruction of the process has not run
    refine ⟨(p, pcOf procs p + 1), ⟨(isInstr_iff hrec).mpr ⟨by omega, by omega⟩, ?_⟩,
      Nat.lt_succ_self _⟩
    exact .inl ⟨rfl, hlt⟩
  · rcases h.stuck p hp with hend | ⟨hblocked, _⟩
    · omega
    · obtain ⟨_, q, _, hne, m, hm, hinstr, hcontains⟩ := h.waits hrec hp hblocked
      exact ⟨(q, m), ⟨hinstr, .inr ⟨hne, hcontains⟩⟩, hm⟩

/-- No attempt gets further than the loop. -/
theorem Stopped.attempt_le {x : Execution} (hrec : x.Recorded) {procs : List Proc}
    (h : x.Stopped procs) {l : List Instr} (hl : Attempt x.IsInstr x.BeforeOthers l) {p k : Nat}
    (hmem : (p, k) ∈ l) : k ≤ pcOf procs p := by
  have hsub := hl.subset_of_stuck (s := {i : Instr | i.2 ≤ pcOf procs i.1}) (by
    intro i hi hout
    obtain ⟨j, hj, hlt⟩ := h.before hrec hi (Nat.lt_of_not_le hout)
    exact ⟨j, hj, Nat.not_le_of_lt hlt⟩)
  exact hsub _ hmem

/-- There is an order exactly if no process is blocked. -/
theorem Stopped.order_iff {x : Execution} (hrec : x.Recorded) {procs : List Proc}
    (h : x.Stopped procs) :
    (∃ l, Order x.IsInstr x.BeforeOthers l) ↔
      ∀ p, p < x.threads → (procs.getD p default).blocked = false := by
  constructor
  · intro ⟨l, hl⟩ p hp
    by_contra hblocked
    obtain ⟨hinstr, _⟩ := h.waits hrec hp (by simpa using hblocked)
    have := h.attempt_le hrec hl.toAttempt (hl.all _ hinstr)
    omega
  · intro hfree
    obtain ⟨log, hlog, hmem⟩ := h.ran
    refine ⟨log, { hlog with all := ?_ }⟩
    intro ⟨p, k⟩ hi
    have hp := lt_threads_of_isInstr hrec hi
    have hk := (isInstr_iff hrec).mp hi
    rcases h.stuck p hp with hend | ⟨hblocked, _⟩
    · exact (hmem p k).mpr ⟨hk.1, hend.symm ▸ hk.2⟩
    · rw [hfree p hp] at hblocked
      cases hblocked

/-! ## The location -/

/-- The process is blocked at a store, whose update is the one of `st`. -/
def WaitsAt (x : Execution) (procs : List Proc) (p : Nat) (st : StUpd) : Prop :=
  (procs.getD p default).blocked = true ∧ 0 < (procs.getD p default).storeIndex ∧
    (x.stores p)[(procs.getD p default).storeIndex - 1]? = some st ∧
    st.store = pcOf procs p + 1

/-- A blocked process has passed the store that it waits with. -/
theorem waitsAt_of_updates {x : Execution} (hrec : x.Recorded) {procs : List Proc}
    (h : x.Stopped procs) {p : Nat} (hp : p < x.threads)
    (hblocked : (procs.getD p default).blocked = true) {u : RecordedEvent} (hu : u ∈ x.events)
    (hupdates : Updates p (pcOf procs p + 1) u) : ∃ st, x.WaitsAt procs p st := by
  obtain ⟨i, hget⟩ := List.getElem?_of_mem hu
  obtain ⟨n, hn⟩ := List.getElem?_of_mem
    (mem_stores.mpr ⟨u, hget, hupdates⟩ : (⟨pcOf procs p + 1, i⟩ : StUpd) ∈ x.stores p)
  have hinv := h.each p hp
  have hstores := hinv.stores
  rw [hblocked] at hstores
  simp only [if_true] at hstores
  have hlt : n < (procs.getD p default).storeIndex := (hstores n _ hn).mpr (Nat.le_refl _)
  have hle := hinv.storeIndex_le
  obtain ⟨st, hst⟩ : ∃ st, (x.stores p)[(procs.getD p default).storeIndex - 1]? = some st :=
    ⟨_, List.getElem?_eq_getElem (by omega)⟩
  refine ⟨st, hblocked, by omega, hst, ?_⟩
  have hthen := (hstores _ st hst).mp (by omega)
  rcases Nat.lt_or_eq_of_le (Nat.le_sub_one_of_lt hlt) with hlt' | rfl
  · have hstore := store_lt hrec hn hst hlt'
    dsimp only at hstore
    unfold pcOf at hstore
    omega
  · obtain rfl := Option.some.inj (hn.symm.trans hst)
    rfl

/-- The blocked process with the first event waits with a store: without one it
waits for an earlier event. -/
theorem Stopped.waiting {x : Execution} (hrec : x.Recorded) {procs : List Proc}
    (h : x.Stopped procs) {p : Nat} (hp : p < x.threads)
    (hblocked : (procs.getD p default).blocked = true) :
    ∃ q st, q < x.threads ∧ x.WaitsAt procs q st := by
  generalize hn : (procs.getD p default).pfxIndex = n
  induction n using Nat.strong_induction_on generalizing p with
  | _ n ih =>
    by_cases hstore : ∃ u ∈ x.events, Updates p (pcOf procs p + 1) u
    · obtain ⟨u, hu, hupdates⟩ := hstore
      obtain ⟨st, hst⟩ := waitsAt_of_updates hrec h hp hblocked hu hupdates
      exact ⟨p, st, hp, hst⟩
    · obtain ⟨e, hget, hholds, _⟩ := (h.each p hp).waits hblocked
      obtain ⟨_, q, hq, hne, m, hm, _, hcontains⟩ := h.waits hrec hp hblocked
      have hclock : m ≤ get e.clock (2 * q) := by
        rcases (contains_iff hrec hget hholds hne m).mp hcontains with hle | ⟨u, hu, hupdates, _⟩
        · exact hle
        · exact absurd ⟨u, hu, hupdates⟩ hstore
      obtain ⟨j, f, hf, hj, hpid, hidx, _⟩ := event_of_clock hrec hget
        (show 0 < get e.clock (2 * q) by omega)
      have htotal := idx_le_total hrec hf
      rw [hpid] at htotal
      have hblocked' : (procs.getD q default).blocked = true := by
        rcases h.stuck q hq with hend | ⟨hb, _⟩
        · omega
        · exact hb
      have hlt : (procs.getD q default).pfxIndex < n := by
        have hjn : j ≠ n := by
          intro heq
          rw [heq, ← hn, hget] at hf
          obtain rfl := Option.some.inj hf
          have := hholds.1
          omega
        have hpos := hrec.size_pos f (List.mem_of_getElem? hf)
        have hjidx := hrec.idx_eq j f hf
        have hsucc := ranIn_succ (2 * q) hf
        rw [if_pos hpid] at hsucc
        rw [hpid] at hjidx
        by_contra hge
        have hmono := ranIn_mono (x := x) (2 * q)
          (show j + 1 ≤ (procs.getD q default).pfxIndex by omega)
        have hle := (h.each q hq).le
        unfold pcOf at hm
        omega
      exact ih _ hlt hq hblocked' rfl

theorem laterStore_eq_some {x : Execution} {updIdx : Option Nat} {procs : List Proc} {i : Nat}
    {st : StUpd} (hblocked : (procs.getD i default).blocked = true)
    (h : x.laterStore updIdx i (procs.getD i default) = some st) : x.WaitsAt procs i st := by
  unfold laterStore at h
  split at h
  · next hpos =>
    obtain ⟨hget, hst⟩ := Option.filter_eq_some_iff.mp h
    rw [Bool.and_eq_true, decide_eq_true_eq] at hst
    exact ⟨hblocked, hpos, hget, hst.1⟩
  · cases h

theorem laterStore_none {x : Execution} {procs : List Proc} {i : Nat} {st : StUpd}
    (h : x.WaitsAt procs i st) : x.laterStore none i (procs.getD i default) = some st := by
  obtain ⟨_, hpos, hget, hstore⟩ := h
  unfold laterStore
  rw [if_pos hpos, hget]
  unfold pcOf at hstore
  simp [hstore]

/-- What the loop over the processes has found: whether one is blocked, and
among the stores that processes wait with the one with the latest update. -/
structure Reported (x : Execution) (procs : List Proc) (l : List Nat) (r : Report) : Prop where
  cycle : r.hasCycle = true ↔ ∃ i ∈ l, (procs.getD i default).blocked = true
  none : r.updIdx = none → ∀ i ∈ l, ∀ st, ¬x.WaitsAt procs i st
  some : ∀ n, r.updIdx = some n → ∃ i ∈ l, ∃ st, x.WaitsAt procs i st ∧ st.update = n ∧
    r.loc = x.events[n]?.map (·.iid)

theorem Reported.step {x : Execution} {procs : List Proc} {l : List Nat} {r : Report}
    (h : x.Reported procs l r) (i : Nat) :
    x.Reported procs (l ++ [i]) (x.report procs r i) := by
  have hmem : ∀ {P : Nat → Prop}, (∃ k ∈ l ++ [i], P k) ↔ (∃ k ∈ l, P k) ∨ P i := by
    intro P
    simp only [List.mem_append, List.mem_singleton, or_and_right, exists_or, exists_eq_left]
  have hkeep : ∀ n, r.updIdx = Option.some n → ∃ k ∈ l ++ [i], ∃ st, x.WaitsAt procs k st ∧
      st.update = n ∧ r.loc = x.events[n]?.map (·.iid) := by
    intro n hn
    exact hmem.mpr (.inl (h.some n hn))
  unfold report
  dsimp only
  by_cases hblocked : (procs.getD i default).blocked = true
  · have htrue : ∃ k ∈ l ++ [i], (procs.getD k default).blocked = true :=
      hmem.mpr (.inr hblocked)
    rw [if_pos hblocked]
    cases hlater : x.laterStore r.updIdx i (procs.getD i default) with
    | some st =>
      have hwaits := laterStore_eq_some hblocked hlater
      refine ⟨iff_of_true rfl htrue, (fun h => nomatch h), ?_⟩
      intro n hn
      obtain rfl := Option.some.inj hn
      exact ⟨i, by simp, st, hwaits, rfl, rfl⟩
    | none =>
      refine ⟨iff_of_true rfl htrue, ?_, hkeep⟩
      intro hupd k hk st hwaits
      dsimp only at hupd
      rcases List.mem_append.mp hk with hk | hk
      · exact h.none hupd k hk st hwaits
      · obtain rfl := List.mem_singleton.mp hk
        rw [hupd, laterStore_none hwaits] at hlater
        cases hlater
  · rw [if_neg hblocked]
    refine ⟨?_, ?_, hkeep⟩
    · rw [hmem, h.cycle]
      exact (or_iff_left hblocked).symm
    · intro hupd k hk st hwaits
      rcases List.mem_append.mp hk with hk | hk
      · exact h.none hupd k hk st hwaits
      · obtain rfl := List.mem_singleton.mp hk
        exact hblocked hwaits.1

theorem reported (x : Execution) (procs : List Proc) (l : List Nat) :
    x.Reported procs l (l.foldl (x.report procs) {}) := by
  induction l using List.reverseRecOn with
  | nil => exact ⟨by simp, (fun _ _ hi => nomatch hi), fun _ hn => nomatch hn⟩
  | append_singleton l i ih =>
    rw [List.foldl_append]
    exact ih.step i

/-! ## What is decided -/

/-- The store of the update is in no attempt. -/
def BlockedIn (x : Execution) (before : Instr → Instr → Prop) (loc : Option IID) : Prop :=
  ∃ u ∈ x.events, u.iid.pid % 2 = 1 ∧ loc = some u.iid ∧
    ∀ l, Attempt x.IsInstr before l → (u.iid.pid / 2, u.originIid.idx) ∉ l

/-- `has_cycle` terminates, its result is true if and only if the instructions
have no order, and `*loc` is then the update of a store that no attempt
reaches. -/
def DecidesFor (x : Execution) (before : Instr → Instr → Prop) : Prop :=
  ∃ r, (∃ fuel, ∀ fuel', fuel ≤ fuel' → hasCycle fuel' x = some r) ∧
    (r.1 = true ↔ ¬∃ l, Order x.IsInstr before l) ∧ (r.1 = true → x.BlockedIn before r.2)

theorem hasCycle_mono {x : Execution} {fuel fuel' : Nat} (hle : fuel ≤ fuel')
    {r : Bool × Option IID} (h : hasCycle fuel x = some r) : hasCycle fuel' x = some r := by
  unfold hasCycle at h ⊢
  obtain ⟨procs, hreplay, hr⟩ := Option.map_eq_some_iff.mp h
  rw [replay_mono hle hreplay, Option.map_some, hr]

/-- What `has_cycle` decides. -/
theorem hasCycle_others {x : Execution} (hrec : x.Recorded) : x.DecidesFor x.BeforeOthers := by
  obtain ⟨procs, hreplay, hstopped⟩ :=
    replay_spec hrec _ (inv_start hrec) (Nat.lt_succ_self _)
  obtain ⟨hcycle, hnone, hsome⟩ := reported x procs (List.range x.threads)
  have hiff : ((List.range x.threads).foldl (x.report procs) {}).hasCycle = true ↔
      ¬∃ l, Order x.IsInstr x.BeforeOthers l := by
    rw [hcycle, hstopped.order_iff hrec]
    constructor
    · intro ⟨i, hi, hblocked⟩ hfree
      rw [hfree i (List.mem_range.mp hi)] at hblocked
      cases hblocked
    · intro hfree
      by_contra hnot
      refine hfree fun p hp => ?_
      by_contra hblocked
      exact hnot ⟨p, List.mem_range.mpr hp, by simpa using hblocked⟩
  have hends : ∃ fuel, ∀ fuel', fuel ≤ fuel' → hasCycle fuel' x =
      some (((List.range x.threads).foldl (x.report procs) {}).hasCycle,
        ((List.range x.threads).foldl (x.report procs) {}).loc) := by
    refine ⟨x.measure ⟨List.replicate x.threads {}, 0, false⟩ + 1, fun fuel' hle => ?_⟩
    refine hasCycle_mono hle ?_
    unfold hasCycle
    rw [hreplay]
    rfl
  refine ⟨_, hends, hiff, ?_⟩
  · intro htrue
    obtain ⟨p, hp, hblocked⟩ := hcycle.mp htrue
    obtain ⟨q, st, hq, hwaits⟩ := hstopped.waiting hrec (List.mem_range.mp hp) hblocked
    cases hupd : ((List.range x.threads).foldl (x.report procs) {}).updIdx with
    | none => exact absurd hwaits (hnone hupd q (List.mem_range.mpr hq) st)
    | some n =>
      obtain ⟨i, hi, st', hwaits', rfl, hloc⟩ := hsome n hupd
      obtain ⟨_, _, hget, hstore⟩ := hwaits'
      obtain ⟨u, hu, hpid, hidx⟩ := mem_stores.mp (List.mem_of_getElem? hget)
      refine ⟨u, List.mem_of_getElem? hu, by omega, by rw [hloc, hu]; rfl, ?_⟩
      intro l hl hmem
      have hhalf : u.iid.pid / 2 = i := by omega
      rw [hhalf, hidx, hstore] at hmem
      have := hstopped.attempt_le hrec hl hmem
      omega

/-! ## The own component of a clock -/

/-- `has_cycle` decides whether the instructions can be put in one order that
respects program order and in which every one comes after all that its clock
contains. -/
def Decides (x : Execution) : Prop := x.DecidesFor x.Before

/-- The clock of an update has no instruction of its own process behind its
store. -/
def OwnClocks (x : Execution) : Prop :=
  ∀ u ∈ x.events, ∀ p k, Updates p k u → get u.clock (2 * p) ≤ k

theorem BeforeOthers.before {x : Execution} {i j : Instr} (h : x.BeforeOthers j i) :
    x.Before j i := by
  obtain ⟨hj, hsame | ⟨hne, hcontains⟩⟩ := h
  · refine ⟨hj, ?_, .inl hsame⟩
    rintro rfl
    omega
  · exact ⟨hj, fun heq => hne (congrArg Prod.fst heq), .inr hcontains⟩

theorem Before.others {x : Execution} (hown : x.OwnClocks) {i j : Instr} (h : x.Before j i) :
    x.BeforeOthers j i := by
  obtain ⟨hj, hne, hsame | hcontains⟩ := h
  · exact ⟨hj, .inl hsame⟩
  · refine ⟨hj, ?_⟩
    by_cases hp : j.1 = i.1
    · have hle : j.2 ≤ i.2 := by
        rcases hcontains with ⟨e, _, _, hle⟩ | ⟨u, hu, hupdates, hle⟩
        · rw [get_put, if_pos (by rw [hp])] at hle
          exact hle
        · rw [hp] at hle
          exact Nat.le_trans hle (hown u hu _ _ hupdates)
      refine .inl ⟨hp, Nat.lt_of_le_of_ne hle fun heq => hne (Prod.ext hp heq)⟩
    · exact .inr ⟨hp, hcontains⟩

theorem order_others {x : Execution} {l : List Instr} (h : Order x.IsInstr x.Before l) :
    Order x.IsInstr x.BeforeOthers l :=
  { h.toAttempt.mono fun _ _ _ hj => hj.before with all := h.all }

/-- In an order of all that the clocks contain, a store is in front of what
follows it. -/
theorem ownClocks_of_order {x : Execution} (hrec : x.Recorded) {l : List Instr}
    (h : Order x.IsInstr x.Before l) : x.OwnClocks := by
  intro u hu p k hupdates
  by_contra hgt
  have hlt : k < get u.clock (2 * p) := by omega
  have hstore := isInstr_of_updates hrec hu hupdates
  have hlater : x.IsInstr (p, get u.clock (2 * p)) :=
    (isInstr_iff hrec).mpr ⟨by omega, clock_le_total hrec hu _⟩
  have hfirst := h.idxOf_lt (h.all _ hstore) (j := (p, get u.clock (2 * p)))
    ⟨hlater, fun heq => Nat.ne_of_gt hlt (congrArg Prod.snd heq),
      .inr (.inr ⟨u, hu, hupdates, Nat.le_refl _⟩)⟩
  have hsecond := h.idxOf_lt (h.all _ hlater) (j := (p, k))
    ⟨hstore, fun heq => Nat.ne_of_lt hlt (congrArg Prod.snd heq), .inl ⟨rfl, hlt⟩⟩
  omega

theorem ownClocks_of_decides {x : Execution} (hrec : x.Recorded) (h : x.Decides) :
    x.OwnClocks ∨ ¬∃ l, Order x.IsInstr x.BeforeOthers l := by
  by_cases hothers : ∃ l, Order x.IsInstr x.BeforeOthers l
  · obtain ⟨r, ⟨fuel, hr⟩, hiff, _⟩ := h
    obtain ⟨r', ⟨fuel', hr'⟩, hiff', _⟩ := hasCycle_others hrec
    have hsame : r = r' := Option.some.inj
      ((hr _ (Nat.le_max_left fuel fuel')).symm.trans (hr' _ (Nat.le_max_right fuel fuel')))
    subst hsame
    have hfalse : ¬r.1 = true := fun htrue => hiff'.mp htrue hothers
    obtain ⟨l, hl⟩ := not_not.mp fun hnone => hfalse (hiff.mpr hnone)
    exact .inl (ownClocks_of_order hrec hl)
  · exact .inr hothers

theorem decides_of_ownClocks {x : Execution} (hrec : x.Recorded)
    (h : x.OwnClocks ∨ ¬∃ l, Order x.IsInstr x.BeforeOthers l) : x.Decides := by
  obtain ⟨r, hends, hiff, hloc⟩ := hasCycle_others hrec
  refine ⟨r, hends, hiff.trans (not_congr ?_), fun htrue => ?_⟩
  · constructor
    · intro ⟨l, hl⟩
      rcases h with hown | hnone
      · exact ⟨l, { hl.toAttempt.mono fun _ _ _ hj => hj.others hown with all := hl.all }⟩
      · exact absurd ⟨l, hl⟩ hnone
    · intro ⟨l, hl⟩
      exact ⟨l, order_others hl⟩
  · obtain ⟨u, hu, hodd, heq, hblocked⟩ := hloc htrue
    exact ⟨u, hu, hodd, heq, fun l hl =>
      hblocked l (hl.mono fun _ _ _ hj => hj.before)⟩

/-- No update directly happens after an event of its own process that follows
its store. -/
def StoresLast (x : Execution) : Prop :=
  ∀ (i g : Nat) (u f : RecordedEvent), x.events[i]? = some u → x.events[g]? = some f →
    x.Edge g i → ∀ p k, Updates p k u → f.iid.pid = 2 * p → f.iid.idx ≤ k

theorem clockAt_eq {x : Execution} {i : Nat} {e : RecordedEvent} (h : x.events[i]? = some e)
    (pid : Nat) : x.clockAt i pid = get e.clock pid := by
  unfold clockAt
  rw [List.getD_eq_getElem?_getD, h, Option.getD_some]

/-- The clock of an event covers the events in its past. -/
theorem idx_le_clock {x : Execution} (hrec : x.Recorded) {j i : Nat} {f e : RecordedEvent}
    (hf : x.events[j]? = some f) (he : x.events[i]? = some e) (hpast : ReflTransGen x.Edge j i) :
    f.iid.idx ≤ get e.clock f.iid.pid := by
  have hle := hrec.above.idx_le (a := j) (e := i) (List.getElem?_eq_some_iff.mp hf).1 hpast
  rw [clockAt_eq he, idxAt, pidAt, List.getD_eq_getElem?_getD, hf, Option.getD_some] at hle
  exact hle

theorem isInstr_of_event {x : Execution} (hrec : x.Recorded) {j q : Nat} {f : RecordedEvent}
    (hf : x.events[j]? = some f) (hpid : f.iid.pid = 2 * q) : x.IsInstr (q, f.iid.idx) := by
  have hpos := hrec.size_pos f (List.mem_of_getElem? hf)
  exact ⟨f, List.mem_of_getElem? hf, hpid, Nat.le_refl _, by dsimp only; omega⟩

/-- When an instruction of `p` behind a store is in the past of its update, but
not directly, there is another process in between: an instruction of it waits
for that instruction, and a store of `p` for the instruction of it. -/
theorem exists_between {x : Execution} (hrec : x.Recorded) (hlast : x.StoresLast) {p k i a : Nat}
    {u e : RecordedEvent} (hu : x.events[i]? = some u) (hupdates : Updates p k u)
    (he : x.events[a]? = some e) (hpid : e.iid.pid = 2 * p) (hlt : k < e.iid.idx)
    (hpast : ReflTransGen x.Edge a i) :
    ∃ k' i', k' ≤ k ∧ x.IsInstr (p, k') ∧ x.IsInstr i' ∧ i'.1 ≠ p ∧ x.Contains (p, k') i' ∧
      x.Contains i' (p, e.iid.idx) := by
  induction i using Nat.strong_induction_on generalizing k u with
  | _ i ih =>
    obtain ⟨hodd, hstore⟩ := hupdates
    rcases ReflTransGen.cases_tail hpast with rfl | ⟨g, hbefore, hedge⟩
    · rw [hu] at he
      obtain rfl := Option.some.inj he
      exact absurd (hpid.symm.trans hodd) (Nat.ne_of_lt (Nat.lt_succ_self _))
    have hedge' := hedge
    obtain ⟨f, u', hf, hu', hgi, _⟩ := hedge
    rw [hu] at hu'
    obtain rfl := Option.some.inj hu'
    have hinstr := isInstr_of_updates hrec (List.mem_of_getElem? hu) ⟨hodd, hstore⟩
    have hfu := idx_le_clock hrec hf hu (.single hedge')
    have hef := idx_le_clock hrec he hf hbefore
    rw [hpid] at hef
    have hfmem := List.mem_of_getElem? hf
    by_cases hreal : f.iid.pid % 2 = 0
    · obtain ⟨q, hq⟩ := Nat.dvd_of_mod_eq_zero hreal
      by_cases hqp : q = p
      · -- an event of the same process is not behind the store
        subst hqp
        have hle := hlast i g u f hu hf hedge' q k ⟨hodd, hstore⟩ hq
        have hidx := hrec.idx_eq a e he
        have hidx' := hrec.idx_eq g f hf
        rw [hpid] at hidx
        rw [hq] at hidx'
        have hmono : e.iid.idx ≤ f.iid.idx := by
          rw [hidx, hidx']
          exact Nat.add_le_add_right (ranIn_mono (x := x) (2 * q) (le_of_past hbefore)) 1
        exact absurd hlt (Nat.not_lt.mpr (Nat.le_trans hmono hle))
      · refine ⟨k, (q, f.iid.idx), Nat.le_refl k, hinstr, isInstr_of_event hrec hf hq, hqp, ?_, ?_⟩
        · exact .inr ⟨u, List.mem_of_getElem? hu, ⟨hodd, hstore⟩, hq ▸ hfu⟩
        · refine .inl ⟨f, hfmem, ⟨hq, Nat.le_refl _, ?_⟩, ?_⟩
          · exact Nat.lt_add_of_pos_right (hrec.size_pos f hfmem)
          · dsimp only
            rw [get_put, if_neg fun heq => hqp (Nat.eq_of_mul_eq_mul_left Nat.two_pos heq).symm]
            exact hef
    · obtain ⟨q, hq⟩ : ∃ q, f.iid.pid = 2 * q + 1 := ⟨f.iid.pid / 2, by omega⟩
      by_cases hqp : q = p
      · -- an earlier update of the same process
        subst hqp
        have hfifo := hrec.fifo g i f u hf hu hgi (hq.trans hodd.symm) (by omega)
        rw [hstore] at hfifo
        obtain ⟨k', i', hle, rest⟩ := ih g hgi hf ⟨hq, rfl⟩ (Nat.lt_trans hfifo hlt) hbefore
        exact ⟨k', i', Nat.le_trans hle (Nat.le_of_lt hfifo), rest⟩
      · obtain ⟨s, e', hs, hsg, hiid, hspid, hmem⟩ := hrec.store g f hf (by omega)
        have hsq : e'.iid.pid = 2 * q := by omega
        have hsu := idx_le_clock hrec hs hu
          (.tail (.single ⟨e', f, hs, hf, hsg, .inr hmem⟩) hedge')
        have hsidx : e'.iid.idx = f.originIid.idx := by rw [hiid]
        rw [hsidx, hsq] at hsu
        refine ⟨k, (q, f.originIid.idx), Nat.le_refl k, hinstr,
          isInstr_of_updates hrec hfmem ⟨hq, rfl⟩, hqp, ?_, ?_⟩
        · exact .inr ⟨u, List.mem_of_getElem? hu, ⟨hodd, hstore⟩, hsu⟩
        · exact .inr ⟨f, hfmem, ⟨hq, rfl⟩, hef⟩

/-- With an order for the other processes it is enough to look at the events
that an update directly happens after. -/
theorem ownClocks_of_storesLast {x : Execution} (hrec : x.Recorded) (hlast : x.StoresLast)
    {l : List Instr} (h : Order x.IsInstr x.BeforeOthers l) : x.OwnClocks := by
  intro u hu p k hupdates
  by_contra hgt
  obtain ⟨i, hget⟩ := List.getElem?_of_mem hu
  obtain ⟨a, e, he, _, hpid, hidx, hpast⟩ := event_of_clock hrec hget
    (show 0 < get u.clock (2 * p) by omega)
  obtain ⟨k', i', hle, hstore, hinstr, hne, hfirst, hsecond⟩ :=
    exists_between hrec hlast hget hupdates he hpid (by omega) hpast
  have hlater := isInstr_of_event hrec he hpid
  -- the three come one after the other in a circle
  have h₁ := h.idxOf_lt (h.all _ hstore) (j := i') ⟨hinstr, .inr ⟨hne, hfirst⟩⟩
  have h₂ := h.idxOf_lt (h.all _ hinstr) (j := (p, e.iid.idx))
    ⟨hlater, .inr ⟨Ne.symm hne, hsecond⟩⟩
  have h₃ := h.idxOf_lt (h.all _ hlater) (j := (p, k')) ⟨hstore, .inl ⟨rfl, by dsimp only; omega⟩⟩
  omega

theorem storesLast_of_ownClocks {x : Execution} (hrec : x.Recorded) (h : x.OwnClocks) :
    x.StoresLast := by
  intro i g u f hu hf hedge p k hupdates hpid
  have hle := idx_le_clock hrec hf hu (.single hedge)
  rw [hpid] at hle
  exact Nat.le_trans hle (h u (List.mem_of_getElem? hu) p k hupdates)

/-- `has_cycle` decides robustness exactly if no update directly happens after
an instruction of its own process behind its store, or else the instructions
have no order even for the other processes. -/
theorem decides_iff (x : Execution) (hrec : x.Recorded) :
    x.Decides ↔ x.StoresLast ∨ ¬∃ l, Order x.IsInstr x.BeforeOthers l := by
  constructor
  · intro h
    exact (ownClocks_of_decides hrec h).imp_left (storesLast_of_ownClocks hrec)
  · intro h
    refine decides_of_ownClocks hrec ?_
    by_cases hothers : ∃ l, Order x.IsInstr x.BeforeOthers l
    · obtain ⟨l, hl⟩ := hothers
      rcases h with hlast | hnone
      · exact .inl (ownClocks_of_storesLast hrec hlast hl)
      · exact absurd ⟨l, hl⟩ hnone
    · exact .inr hothers

/-! ## An update behind a full memory conflict -/

/-- A process stores to its buffer and calls an external function that is no
fence.  The update happens after the full memory conflict of the call. -/
def storeAndPrint : Execution where
  threads := 2
  events := [{ iid := ⟨0, 1⟩, clock := [1] }, { iid := ⟨0, 2⟩, clock := [2] },
    { iid := ⟨1, 1⟩, originIid := ⟨0, 1⟩, clock := [2, 1], happensAfter := [0, 1] }]

theorem edge_storeAndPrint (j i : Nat) :
    storeAndPrint.Edge j i ↔ j = 0 ∧ i = 1 ∨ j = 0 ∧ i = 2 ∨ j = 1 ∧ i = 2 := by
  constructor
  · intro ⟨f, e, hf, he, hlt, hedge⟩
    have hi : i < 3 := (List.getElem?_eq_some_iff.mp he).1
    omega
  · rintro (⟨rfl, rfl⟩ | ⟨rfl, rfl⟩ | ⟨rfl, rfl⟩)
    · exact ⟨_, _, rfl, rfl, by decide, .inl rfl⟩
    · exact ⟨_, _, rfl, rfl, by decide, .inr (by decide)⟩
    · exact ⟨_, _, rfl, rfl, by decide, .inr (by decide)⟩

theorem recorded_storeAndPrint : storeAndPrint.Recorded where
  threads_pos := by decide
  pid_lt := by decide
  size_pos := by decide
  idx_eq i e he := by
    match i, he with
    | 0, he | 1, he | 2, he => cases he; decide
  store i u hu hodd := by
    match i, hu with
    | 0, hu | 1, hu => cases hu; exact absurd hodd (by decide)
    | 2, hu => cases hu; exact ⟨0, _, rfl, by decide, rfl, rfl, by decide⟩
  fifo i j u v hu hv hlt _ hodd := by
    have hj : j < 3 := (List.getElem?_eq_some_iff.mp hv).1
    match i, hu with
    | 0, hu | 1, hu => cases hu; exact absurd hodd (by decide)
    | 2, _ => omega
  sound i p hpos := by
    match i with
    | 0 | 1 =>
      match p with
      | 0 => exact ⟨_, .refl, rfl, rfl⟩
      | p + 1 => exact absurd hpos (by simp [clockAt, storeAndPrint, VectorClock.get])
    | 2 =>
      match p with
      | 0 => exact ⟨1, .single ((edge_storeAndPrint 1 2).mpr (by decide)), rfl, rfl⟩
      | 1 => exact ⟨2, .refl, rfl, rfl⟩
      | p + 2 => exact absurd hpos (by simp [clockAt, storeAndPrint, VectorClock.get])
    | i + 3 =>
      have hnone : storeAndPrint.clockAt (i + 3) p = VectorClock.get [] p := rfl
      rw [hnone, get_nil] at hpos
      exact absurd hpos (Nat.lt_irrefl 0)
  above := {
    own := by
      intro i hi
      have hi : i < 3 := hi
      match i, hi with
      | 0, _ | 1, _ | 2, _ => decide
    edge := by
      intro j i hedge p
      rcases (edge_storeAndPrint j i).mp hedge with ⟨rfl, rfl⟩ | ⟨rfl, rfl⟩ | ⟨rfl, rfl⟩ <;>
      · match p with
        | 0 => decide
        | 1 => decide
        | p + 2 => simp [clockAt, storeAndPrint, VectorClock.get] }

theorem decides_iff_storeAndPrint :
    storeAndPrint.Decides ↔ storeAndPrint.StoresLast ∨
      ¬∃ l, Order storeAndPrint.IsInstr storeAndPrint.BeforeOthers l :=
  decides_iff storeAndPrint recorded_storeAndPrint

/-- The call is behind the store by program order, and in the clock of its
update. -/
theorem not_decides : ¬∀ x : Execution, x.Recorded → x.Decides := by
  intro h
  rcases ownClocks_of_decides recorded_storeAndPrint (h _ recorded_storeAndPrint) with hown | hnone
  · have hle := hown { iid := ⟨1, 1⟩, originIid := ⟨0, 1⟩, clock := [2, 1], happensAfter := [0, 1] }
      (by decide) 0 1 ⟨rfl, rfl⟩
    exact absurd hle (by decide)
  · obtain ⟨r, ⟨fuel, hr⟩, hiff, _⟩ := hasCycle_others recorded_storeAndPrint
    have hrun : hasCycle 20 storeAndPrint = some (false, none) := by decide
    have hlater := hasCycle_mono (Nat.le_max_right fuel 20) hrun
    obtain rfl := Option.some.inj ((hr _ (Nat.le_max_left fuel 20)).symm.trans hlater)
    exact absurd (hiff.mpr hnone) (by decide)

end Execution

end ViEqui.Tso
