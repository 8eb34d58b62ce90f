import ViEqui.Tso.Effects

/-!
# Who is woken by an operation

* `Reachable`: the runs of the builder.
* `Inv`: the bytes noted for a sleeper are those of its symbolic events.
* `wakesExactly_iff`: in a reachable state, the threads that an operation
  removes from the sleep set are those that its events conflict with, if and
  only if no conflict is overlooked and no store is taken for another one.
-/

namespace ViEqui.Tso

namespace TSOTraceBuilder

/-! ## Runs -/

/-- The calls of the builder. -/
inductive Action where
  | schedule (p alt : Nat) (expected : Option Sym)
  | scheduleDryRun (p : Nat)
  | spawn
  | join (proc : Nat)
  | registerAlternatives (altCount : Nat)
  | op (op : Op)
  | reset

def Action.apply : Action → TSOTraceBuilder → TSOTraceBuilder
  | schedule p alt expected, s => s.schedule p alt expected
  | scheduleDryRun p, s => s.scheduleDryRun p
  | spawn, s => s.spawn.2
  | join proc, s => (s.join proc).2
  | registerAlternatives altCount, s => (s.registerAlternatives altCount).2
  | op o, s => (o.execute s).2
  | reset, s => s.reset

/-- Thread `p` is a real thread that is awake. -/
def Awake (s : TSOTraceBuilder) (p : Nat) : Prop :=
  p % 2 = 0 ∧ ∃ t, s.threads[p]? = some t ∧ t.sleeping = false

/-- A thread that is scheduled is awake, which `schedule` tests, or asserts in
a replay.  A thread is put to sleep at an event where it ran the time before,
so it is awake too. -/
def Action.Allowed (s : TSOTraceBuilder) : Action → Prop
  | schedule p _ _ | scheduleDryRun p => s.Awake p
  | _ => True

/-- The states of all runs. -/
inductive Reachable (conf : DporAlgorithm) : TSOTraceBuilder → Prop where
  | start : Reachable conf { conf }
  | step {s : TSOTraceBuilder} (h : Reachable conf s) (a : Action) (ha : a.Allowed s) :
      Reachable conf (a.apply s)

variable {s s' : TSOTraceBuilder} {as : List Access} {es : Sym} {p : Nat}

/-! ## Runs keep the notes -/

/-- The threads that sleep are real ones with the notes of their symbolic
events.  Outside a dry run the thread of the current event is awake, and in one
the thread that is put to sleep is not. -/
structure Inv (s : TSOTraceBuilder) : Prop where
  consistent : ∀ (p : Nat) (t : Thread), s.threads[p]? = some t → t.Consistent
  real : ∀ (p : Nat) (t : Thread), s.threads[p]? = some t → t.sleeping = true → p % 2 = 0
  cur : s.dryrun = none → s.Awake s.cur
  dry : ∀ p, s.dryrun = some p → ∃ t : Thread, s.threads[p]? = some t ∧ t.sleeping = true

theorem inv_start (conf : DporAlgorithm) : Inv { conf } where
  consistent := by
    intro p t ht
    have hmem : t ∈ [({} : Thread), {}] := List.mem_of_getElem? ht
    simp only [List.mem_cons, List.not_mem_nil, or_false, or_self] at hmem
    exact hmem ▸ Thread.consistent_new
  real := by
    intro p t ht hsleep
    have hmem : t ∈ [({} : Thread), {}] := List.mem_of_getElem? ht
    simp only [List.mem_cons, List.not_mem_nil, or_false, or_self] at hmem
    rw [hmem] at hsleep
    cases hsleep
  cur := fun _ => ⟨rfl, {}, rfl, rfl⟩
  dry := nofun

theorem Inv.woke (h : s.Inv) (hw : Woke s as s') (hdry : s.dryrun = none) : s'.Inv := by
  have hget (p : Nat) (t : Thread) (ht : s'.threads[p]? = some t) :
      ∃ t', s.threads[p]? = some t' ∧ (t = t' ∨ t = t'.woken) := by
    rw [hw.threads, getElem?_wakeThreads, Option.map_eq_some_iff] at ht
    obtain ⟨t', ht', rfl⟩ := ht
    refine ⟨t', ht', ?_⟩
    split
    · exact .inr rfl
    · exact .inl rfl
  constructor
  case consistent =>
    intro p t ht
    obtain ⟨t', ht', rfl | rfl⟩ := hget p t ht
    · exact h.consistent p t ht'
    · exact (h.consistent p t' ht').woken
  case real =>
    intro p t ht hsleep
    obtain ⟨t', ht', rfl | rfl⟩ := hget p t ht
    · exact h.real p t ht' hsleep
    · cases hsleep
  case cur =>
    intro _
    obtain ⟨heven, t, ht, hawake⟩ := h.cur hdry
    rw [hw.cur]
    refine ⟨heven, if as.any (t.wakesOn s.cur s.cur) then t.woken else t, ?_, ?_⟩
    · rw [hw.threads, getElem?_wakeThreads, ht]
      rfl
    · split
      · rfl
      · exact hawake
  case dry =>
    intro p hp
    cases hw.dryrun.symm.trans hp

theorem Inv.notedFor (h : s.Inv) (hn : NotedFor s p es s') (hdry : s.dryrun = some p)
    (hes : ∀ e ∈ es, e.Notable) : s'.Inv := by
  obtain ⟨t₀, ht₀, hsleep₀⟩ := h.dry p hdry
  have hget (q : Nat) (t : Thread) (ht : s'.threads[q]? = some t) :
      (q ≠ p ∧ s.threads[q]? = some t) ∨ (q = p ∧ t = es.foldl Thread.noteEvent t₀) := by
    rw [hn.threads, List.getElem?_modify] at ht
    by_cases hq : p = q
    · subst hq
      rw [ht₀] at ht
      exact .inr ⟨rfl, by simpa using ht.symm⟩
    · exact .inl ⟨Ne.symm hq, by simpa [hq] using ht⟩
  have hnoted := (h.consistent p t₀ ht₀).noteEvents hsleep₀ hes
  constructor
  case consistent =>
    intro q t ht
    rcases hget q t ht with ⟨-, ht⟩ | ⟨-, rfl⟩
    · exact h.consistent q t ht
    · exact hnoted.1
  case real =>
    intro q t ht hsleep
    rcases hget q t ht with ⟨-, ht⟩ | ⟨rfl, -⟩
    · exact h.real q t ht hsleep
    · exact h.real q t₀ ht₀ hsleep₀
  case cur =>
    intro hnone
    cases hnone.symm.trans hn.dryrun
  case dry =>
    intro q hq
    obtain rfl : p = q := Option.some.inj (hn.dryrun.symm.trans hq)
    refine ⟨es.foldl Thread.noteEvent t₀, ?_, hnoted.2⟩
    rw [hn.threads, List.getElem?_modify, ht₀]
    simp

theorem Inv.recordSymbolic (h : s.Inv) {e : SymEv} (he : e.Notable)
    (hr : e.role.notesRead = false) (hw : e.role.notesWrite = false)
    (hfull : e.role ≠ .fullmem) : (s.recordSymbolic e).2.Inv := by
  cases hdry : s.dryrun with
  | none => exact h.woke (Woke.recordSymbolic hdry e) hdry
  | some p =>
    refine h.notedFor (NotedFor.recordSymbolic hdry hr hw hfull) hdry fun f hf => ?_
    rw [List.mem_singleton.mp hf]
    exact he

theorem Inv.noStores (h : s.Inv) : s.NoStores := by
  unfold NoStores
  rw [List.getD_eq_getElem?_getD]
  cases ht : s.threads[s.cur]? with
  | none => rfl
  | some t => exact (h.consistent _ t ht).noStores

theorem Inv.execute (h : s.Inv) (op : Op) : (op.execute s).2.Inv := by
  cases hdry : s.dryrun with
  | none =>
    obtain ⟨done, -, -, hwoke⟩ := performs_execute hdry h.noStores op
    exact h.woke hwoke hdry
  | some p => exact h.notedFor (notedFor_execute hdry op) hdry (op.notable s.conf)

theorem Inv.schedule (h : s.Inv) {alt : Nat} {expected : Option Sym} (hp : s.Awake p) :
    (s.schedule p alt expected).Inv where
  consistent := h.consistent
  real := h.real
  cur := fun _ => hp
  dry := nofun

theorem Inv.scheduleDryRun (h : s.Inv) (hp : s.Awake p) : (s.scheduleDryRun p).Inv := by
  obtain ⟨heven, t₀, ht₀, hawake⟩ := hp
  have hget (q : Nat) (t : Thread) (ht : (s.scheduleDryRun p).threads[q]? = some t) :
      (q ≠ p ∧ s.threads[q]? = some t) ∨
        (q = p ∧ t = { t₀ with sleeping := true, sleepSym := some [] }) := by
    change (s.threads.modify p _)[q]? = some t at ht
    rw [List.getElem?_modify] at ht
    by_cases hq : p = q
    · subst hq
      rw [ht₀] at ht
      exact .inr ⟨rfl, by simpa using ht.symm⟩
    · exact .inl ⟨Ne.symm hq, by simpa [hq] using ht⟩
  constructor
  case consistent =>
    intro q t ht
    rcases hget q t ht with ⟨-, ht⟩ | ⟨-, rfl⟩
    · exact h.consistent q t ht
    · exact (h.consistent p t₀ ht₀).putToSleep hawake
  case real =>
    intro q t ht hsleep
    rcases hget q t ht with ⟨-, ht⟩ | ⟨rfl, -⟩
    · exact h.real q t ht hsleep
    · exact heven
  case cur => nofun
  case dry =>
    intro q hq
    obtain rfl : p = q := Option.some.inj hq
    refine ⟨{ t₀ with sleeping := true, sleepSym := some [] }, ?_, rfl⟩
    change (s.threads.modify p _)[p]? = _
    rw [List.getElem?_modify, ht₀]
    simp

theorem Inv.addThreads (h : s.Inv) :
    ({ s with threads := s.threads ++ [({} : Thread), {}] } : TSOTraceBuilder).Inv := by
  have hnew (q : Nat) (t : Thread) (ht : (s.threads ++ [({} : Thread), {}])[q]? = some t) :
      s.threads[q]? = some t ∨ t = {} := by
    rw [List.getElem?_append] at ht
    split at ht
    · exact .inl ht
    · have hmem : t ∈ [({} : Thread), {}] := List.mem_of_getElem? ht
      exact .inr (by simpa using hmem)
  have hold (q : Nat) (t : Thread) (ht : s.threads[q]? = some t) :
      (s.threads ++ [({} : Thread), {}])[q]? = some t := by
    rw [List.getElem?_append_left (List.getElem?_eq_some_iff.mp ht).1]
    exact ht
  constructor
  case consistent =>
    intro q t ht
    rcases hnew q t ht with ht | rfl
    · exact h.consistent q t ht
    · exact Thread.consistent_new
  case real =>
    intro q t ht hsleep
    rcases hnew q t ht with ht | rfl
    · exact h.real q t ht hsleep
    · cases hsleep
  case cur =>
    intro hdry
    obtain ⟨heven, t, ht, hawake⟩ := h.cur hdry
    exact ⟨heven, t, hold _ t ht, hawake⟩
  case dry =>
    intro q hq
    obtain ⟨t, ht, hsleep⟩ := h.dry q hq
    exact ⟨t, hold _ t ht, hsleep⟩

theorem Inv.apply (h : s.Inv) (a : Action) (ha : a.Allowed s) : (a.apply s).Inv := by
  cases a with
  | schedule p alt expected => exact h.schedule ha
  | scheduleDryRun p => exact h.scheduleDryRun ha
  | spawn => exact h.addThreads.recordSymbolic ⟨rfl, nofun⟩ rfl rfl nofun
  | join proc => exact h.recordSymbolic ⟨rfl, nofun⟩ rfl rfl nofun
  | registerAlternatives altCount => exact h.recordSymbolic ⟨rfl, nofun⟩ rfl rfl nofun
  | op o => exact h.execute o
  | reset => exact inv_start s.conf

theorem Reachable.inv {conf : DporAlgorithm} (h : Reachable conf s) : s.Inv := by
  induction h with
  | start => exact inv_start conf
  | step _ a ha ih => exact ih.apply a ha

/-! ## Threads that are woken -/

/-- The threads that the operation removes from the sleep set are exactly those
with symbolic events that conflict with the ones of the operation. -/
def WakesExactly (s : TSOTraceBuilder) (op : Op) : Prop :=
  ∀ (p : Nat) (t : Thread) (fs : Sym),
    s.threads[p]? = some t → t.sleeping = true → t.sleepSym = some fs →
      ((∃ t', (op.execute s).2.threads[p]? = some t' ∧ t'.sleeping = false) ↔
        doEventsConflict s.cur (op.events s.conf) p fs = true)

/-- No sleeping thread is overlooked: when its next step spawns or joins the
current thread, or has a conflict that `wakeup` does not see, then another
event of the operation hits it.  And none is woken by a store to the same
bytes only. -/
def NoOversight (s : TSOTraceBuilder) (op : Op) : Prop :=
  ∀ (p : Nat) (t : Thread) (fs : Sym),
    s.threads[p]? = some t → t.sleeping = true → t.sleepSym = some fs →
      let overlooked := fs.namesThread s.cur = true ∨
        ∃ e ∈ op.events s.conf, ∃ f ∈ fs, e.overlooked f = true
      let hit := ∃ e ∈ op.events s.conf, ∃ f ∈ fs, e.hits f = true
      (overlooked → hit) ∧
        (hit → overlooked ∨
          ∃ e ∈ op.events s.conf, ∃ f ∈ fs, e.hits f = true ∧ e.spurious f = false)

/-- A thread is removed from the sleep set when an event of the operation hits
one of its events. -/
theorem Inv.removed_iff (h : s.Inv) (hdry : s.dryrun = none) {op : Op}
    (hop : s.performs op = true) {t : Thread} {fs : Sym} (ht : s.threads[p]? = some t)
    (hsleep : t.sleeping = true) (hfs : t.sleepSym = some fs) :
    (∃ t', (op.execute s).2.threads[p]? = some t' ∧ t'.sleeping = false) ↔
      ∃ e ∈ op.events s.conf, ∃ f ∈ fs, e.hits f = true := by
  obtain ⟨done, -, hall, hwoke⟩ := performs_execute hdry h.noStores op
  obtain rfl := hall hop
  obtain ⟨gs, hnotes⟩ := (h.consistent p t ht).asleep hsleep
  obtain rfl : fs = gs := Option.some.inj (hfs.symm.trans hnotes.sym)
  have hp : p % 2 = s.cur % 2 := (h.real p t ht hsleep).trans (h.cur hdry).1.symm
  have hstores := (h.consistent p t ht).noStores
  have hany : ((op.events s.conf).flatMap SymEv.accesses).any (t.wakesOn p s.cur) = true ↔
      ∃ e ∈ op.events s.conf, ∃ f ∈ fs, e.hits f = true := by
    simp only [List.any_flatMap, List.any_eq_true]
    refine exists_congr fun e => and_congr_right fun he => ?_
    exact hnotes.woken_iff hstores (op.notable s.conf e he) hp
  rw [hwoke.threads, getElem?_wakeThreads, ht, Option.map_some, ← hany]
  cases ((op.events s.conf).flatMap SymEv.accesses).any (t.wakesOn p s.cur) with
  | true => exact ⟨fun _ => rfl, fun _ => ⟨t.woken, rfl, rfl⟩⟩
  | false =>
    refine ⟨fun ⟨t', ht', hawake⟩ => ?_, fun h => by cases h⟩
    obtain rfl : t = t' := Option.some.inj ht'
    cases hsleep.symm.trans hawake

theorem Inv.conflict_iff (h : s.Inv) (hdry : s.dryrun = none) (op : Op) {t : Thread} {fs : Sym}
    (ht : s.threads[p]? = some t) (hsleep : t.sleeping = true) (hfs : t.sleepSym = some fs) :
    doEventsConflict s.cur (op.events s.conf) p fs = true ↔
      fs.namesThread s.cur = true ∨ (∃ e ∈ op.events s.conf, ∃ f ∈ fs, e.overlooked f = true) ∨
        ∃ e ∈ op.events s.conf, ∃ f ∈ fs, e.hits f = true ∧ e.spurious f = false := by
  have hcur : s.cur ≠ p := by
    intro hcur
    obtain ⟨-, t', ht', hawake⟩ := h.cur hdry
    rw [hcur, ht] at ht'
    rw [← Option.some.inj ht', hsleep] at hawake
    cases hawake
  obtain ⟨gs, hnotes⟩ := (h.consistent p t ht).asleep hsleep
  obtain rfl : fs = gs := Option.some.inj (hfs.symm.trans hnotes.sym)
  have hpair (e : SymEv) (he : e ∈ op.events s.conf) (f : SymEv) (hf : f ∈ fs) :
      e.doSymevsConflict f = true ↔
        e.overlooked f = true ∨ e.hits f = true ∧ e.spurious f = false := by
    rw [SymEv.doSymevsConflict_eq (op.notable s.conf e he).1 (hnotes.notable f hf).1
      (op.role_events s.conf e he)]
    simp only [Bool.or_eq_true, Bool.and_eq_true, Bool.not_eq_true']
    exact or_comm
  have hpairs : ((op.events s.conf).any fun e => fs.any fun f => e.doSymevsConflict f) = true ↔
      (∃ e ∈ op.events s.conf, ∃ f ∈ fs, e.overlooked f = true) ∨
        ∃ e ∈ op.events s.conf, ∃ f ∈ fs, e.hits f = true ∧ e.spurious f = false := by
    simp only [List.any_eq_true]
    constructor
    · intro ⟨e, he, f, hf, hconf⟩
      rcases (hpair e he f hf).mp hconf with ho | hh
      · exact .inl ⟨e, he, f, hf, ho⟩
      · exact .inr ⟨e, he, f, hf, hh⟩
    · rintro (⟨e, he, f, hf, ho⟩ | ⟨e, he, f, hf, hh⟩)
      · exact ⟨e, he, f, hf, (hpair e he f hf).mpr (.inl ho)⟩
      · exact ⟨e, he, f, hf, (hpair e he f hf).mpr (.inr hh)⟩
  rw [doEventsConflict_eq, ← hpairs, op.namesThread_events]
  simp [hcur]

/-- The threads are woken exactly by conflicts when no sleeping thread is
overlooked. -/
theorem wakesExactly_iff {conf : DporAlgorithm} (h : Reachable conf s) (hdry : s.dryrun = none)
    {op : Op} (hop : s.performs op = true) : s.WakesExactly op ↔ s.NoOversight op := by
  unfold WakesExactly NoOversight
  refine forall_congr' fun p => forall_congr' fun t => forall_congr' fun fs =>
    forall_congr' fun ht => forall_congr' fun hsleep => forall_congr' fun hfs => ?_
  rw [h.inv.removed_iff hdry hop ht hsleep hfs, h.inv.conflict_iff hdry op ht hsleep hfs,
    ← or_assoc]
  constructor
  · intro hiff
    exact ⟨fun ho => hiff.mpr (.inl ho), hiff.mp⟩
  · intro ⟨hover, hreal⟩
    refine ⟨hreal, ?_⟩
    rintro (ho | ⟨e, he, f, hf, hhit, -⟩)
    · exact hover ho
    · exact ⟨e, he, f, hf, hhit⟩

/-- Thread 2 sleeps with a `mutex_lock` of the first global, and thread 4
replays an event. -/
def sleepingLock (expected : Sym) : TSOTraceBuilder :=
  let s : TSOTraceBuilder := { conf := .optimal }
  ((s.spawn.2.spawn.2.scheduleDryRun 2).mutexLock ⟨.global 0, 0⟩).2.schedule 4 0 (some expected)

theorem reachable_sleepingLock (expected : Sym) :
    Reachable .optimal (sleepingLock expected) := by
  have hstart : Reachable .optimal { conf := .optimal } := .start
  have hrun := (hstart.step .spawn trivial).step .spawn trivial
  have hsleep := (hrun.step (.scheduleDryRun 2) ⟨rfl, {}, rfl, rfl⟩).step
    (.op (.mutexLock ⟨.global 0, 0⟩)) trivial
  exact hsleep.step (.schedule 4 0 (some expected)) ⟨rfl, {}, rfl, rfl⟩

theorem wakesExactly_iff_sleepingLock :
    let m : SymAddr := ⟨.global 0, 0⟩
    (sleepingLock [.mUnlock m.one]).WakesExactly (.mutexUnlock m) ↔
      (sleepingLock [.mUnlock m.one]).NoOversight (.mutexUnlock m) :=
  wakesExactly_iff (reachable_sleepingLock _) rfl (by decide)

/-- A `mutex_init` does not wake thread 2, although it conflicts with the
`mutex_lock`. -/
theorem not_wakesExactly :
    ¬ ∀ (conf : DporAlgorithm) (s : TSOTraceBuilder) (op : Op), Reachable conf s →
      s.dryrun = none → s.performs op = true → s.WakesExactly op := by
  intro h
  let m : SymAddr := ⟨.global 0, 0⟩
  have hwoken := (h .optimal _ (.mutexInit m) (reachable_sleepingLock [.mInit m.one]) rfl rfl
    2 _ [.mLock m.one] rfl rfl rfl).mpr (by decide)
  obtain ⟨t, ht, hawake⟩ := hwoken
  cases Option.some.inj ht
  cases hawake

end TSOTraceBuilder

end ViEqui.Tso
