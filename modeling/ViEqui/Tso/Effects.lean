import ViEqui.Tso.Sleeper

/-!
# What an operation does to the threads

* `Op`: the operations on memory, mutexes and condition variables, with the
  symbolic events that each of them records.
* `performs_execute`: outside a dry run, `wakeup` is called with the accesses
  of these events.
* `notedFor_execute`: in a dry run the events are noted for the thread that is
  put to sleep.
-/

namespace ViEqui.Tso

/-! ## Operations -/

/-- The operations on memory, mutexes and condition variables. -/
inductive Op where
  | load (ml : ByteRange)
  | atomicStore (ml : ByteRange) (written : Block)
  | compareExchange (ml : ByteRange) (written expected : Block) (success : Bool)
  | fullMemoryConflict
  | mutexLock (m : SymAddr)
  | mutexLockFail (m : SymAddr)
  | mutexTrylock (m : SymAddr)
  | mutexUnlock (m : SymAddr)
  | mutexInit (m : SymAddr)
  | mutexDestroy (m : SymAddr)
  | condInit (c : SymAddr)
  | condSignal (c : SymAddr)
  | condBroadcast (c : SymAddr)
  | condWait (c m : SymAddr)
  | condAwake (c m : SymAddr)
  | condDestroy (c : SymAddr)

namespace Op

def execute : Op → TSOTraceBuilder → TSOTraceBuilder.Result
  | load ml, s => s.load ml.range
  | atomicStore ml written, s => s.atomicStore ml.range written
  | compareExchange ml written expected success, s =>
    s.compareExchange ml.range written expected success
  | fullMemoryConflict, s => s.fullMemoryConflict
  | mutexLock m, s => s.mutexLock m
  | mutexLockFail m, s => s.mutexLockFail m
  | mutexTrylock m, s => s.mutexTrylock m
  | mutexUnlock m, s => s.mutexUnlock m
  | mutexInit m, s => s.mutexInit m
  | mutexDestroy m, s => s.mutexDestroy m
  | condInit c, s => s.condInit c
  | condSignal c, s => s.condSignal c
  | condBroadcast c, s => s.condBroadcast c
  | condWait c m, s => s.condWait c m
  | condAwake c m, s => s.condAwake c m
  | condDestroy c, s => s.condDestroy c

/-- The symbolic events of an operation.  That of the choice of a waiter in
`cond_signal` conflicts with nothing and is not among them. -/
def events (conf : DporAlgorithm) : Op → Sym
  | load ml => [.load ml.range]
  | atomicStore ml written =>
    [if conf = .observers then .unobsStore ml.range written else .store ml.range written]
  | compareExchange ml written expected success =>
    [if success then .cmpXhg ml.range written expected
      else .cmpXhgFail ml.range written expected]
  | fullMemoryConflict => [.fullmem]
  | mutexLock m | mutexTrylock m => [.mLock m.one]
  | mutexLockFail _ => []
  | mutexUnlock m => [.mUnlock m.one]
  | mutexInit m => [.mInit m.one]
  | mutexDestroy m => [.mDelete m.one]
  | condInit c => [.cInit c.one]
  | condSignal c => [.cSignal c.one]
  | condBroadcast c => [.cBrdcst c.one]
  | condWait c m => [.mUnlock m.one, .cWait c.one]
  | condAwake c m => [.mLock m.one, .cAwake c.one]
  | condDestroy c => [.cDelete c.one]

theorem notable (op : Op) (conf : DporAlgorithm) : ∀ e ∈ op.events conf, e.Notable := by
  intro e he
  cases op with
  | load ml => exact List.mem_singleton.mp he ▸ ⟨rfl, fun _ => ml.size_pos⟩
  | atomicStore ml written =>
    rw [List.mem_singleton.mp he]
    split
    all_goals exact ⟨rfl, fun _ => ml.size_pos⟩
  | compareExchange ml written expected success =>
    rw [List.mem_singleton.mp he]
    split
    all_goals exact ⟨rfl, fun _ => ml.size_pos⟩
  | mutexLockFail m => cases he
  | fullMemoryConflict => exact List.mem_singleton.mp he ▸ ⟨rfl, nofun⟩
  | condWait c m | condAwake c m =>
    simp only [events, List.mem_cons, List.not_mem_nil, or_false] at he
    rcases he with rfl | rfl
    all_goals exact ⟨rfl, fun _ => Nat.one_pos⟩
  | _ => exact List.mem_singleton.mp he ▸ ⟨rfl, fun _ => Nat.one_pos⟩

/-- The events of an operation are neither choices nor spawns nor joins. -/
theorem role_events (op : Op) (conf : DporAlgorithm) :
    ∀ e ∈ op.events conf, e.role ≠ .other ∧ e.role ≠ .thread := by
  intro e he
  cases op with
  | atomicStore ml written =>
    rw [List.mem_singleton.mp he]
    split
    all_goals exact ⟨nofun, nofun⟩
  | compareExchange ml written expected success =>
    rw [List.mem_singleton.mp he]
    split
    all_goals exact ⟨nofun, nofun⟩
  | mutexLockFail m => cases he
  | condWait c m | condAwake c m =>
    simp only [events, List.mem_cons, List.not_mem_nil, or_false] at he
    rcases he with rfl | rfl
    all_goals exact ⟨nofun, nofun⟩
  | _ => exact List.mem_singleton.mp he ▸ ⟨nofun, nofun⟩

theorem namesThread_events (op : Op) (conf : DporAlgorithm) (p : Nat) :
    Sym.namesThread (op.events conf) p = false := by
  unfold Sym.namesThread
  rw [List.any_eq_false]
  intro e he
  rw [SymEv.hasPid_eq_role, decide_eq_false (op.role_events conf e he).2]
  exact Bool.false_ne_true

end Op

namespace TSOTraceBuilder

/-- `record_symbolic` accepts an event outside a dry run. -/
def accepts (s : TSOTraceBuilder) (event : SymEv) : Bool :=
  !s.replay || s.sym[s.symIdx]?.any fun last => last.isCompatibleWith event

/-- It accepts several events, one after the other. -/
def acceptsAll (s : TSOTraceBuilder) : Sym → Bool
  | [] => true
  | e :: es => s.accepts e && (s.recordSymbolic e).2.acceptsAll es

/-- The operation is performed: its events are accepted, and `cond_wait` is
called with a mutex of the thread. -/
def performs (s : TSOTraceBuilder) (op : Op) : Bool :=
  s.acceptsAll (op.events s.conf) &&
  match op with
  | .condWait _ m => s.ownsMutex m
  | _ => true

end TSOTraceBuilder

/-! ## An operation outside a dry run -/

namespace TSOTraceBuilder

variable {s s' s'' : TSOTraceBuilder} {as as' : List Access} {es es' : Sym}

/-- Outside a dry run the accesses `as` lead from `s` to `s'`. -/
structure Woke (s : TSOTraceBuilder) (as : List Access) (s' : TSOTraceBuilder) : Prop where
  threads : s'.threads = as.foldl (wakeThreads s.cur) s.threads
  cur : s'.cur = s.cur
  dryrun : s'.dryrun = none

theorem Woke.trans (h : Woke s as s') (h' : Woke s' as' s'') : Woke s (as ++ as') s'' where
  threads := by rw [h'.threads, h.threads, h.cur, List.foldl_append]
  cur := h'.cur.trans h.cur
  dryrun := h'.dryrun

theorem Woke.recordSymbolic (h : s.dryrun = none) (e : SymEv) :
    Woke s [] (s.recordSymbolic e).2 := by
  unfold TSOTraceBuilder.recordSymbolic
  split
  case h_1 p hp => cases h.symm.trans hp
  case h_2 =>
    repeat' split
    all_goals exact ⟨rfl, rfl, h⟩

theorem recordSymbolic_fst (h : s.dryrun = none) (e : SymEv) :
    (s.recordSymbolic e).1 = s.accepts e := by
  unfold TSOTraceBuilder.recordSymbolic accepts
  rw [h]
  cases s.replay with
  | false => rfl
  | true =>
    cases s.sym[s.symIdx]? with
    | none => rfl
    | some last => cases hc : last.isCompatibleWith e <;> simp [hc]

theorem Woke.wakeup (h : s.dryrun = none) (access : Access) : Woke s [access] (s.wakeup access) :=
  ⟨rfl, rfl, h⟩

theorem Woke.foldl (h : s.dryrun = none) (f : SymAddr → Access) (bs : List SymAddr) :
    Woke s (bs.map f) (bs.foldl (fun s b => s.wakeup (f b)) s) := by
  induction bs generalizing s with
  | nil => exact ⟨rfl, rfl, h⟩
  | cons b bs ih => exact (Woke.wakeup h (f b)).trans (ih h)

theorem dryOr_live (h : s.dryrun = none) (note : Thread → Thread) (k : TSOTraceBuilder → Result) :
    s.dryOr note k = k s := by
  unfold dryOr
  rw [h]

/-- The thread of the current event has no pending store. -/
def NoStores (s : TSOTraceBuilder) : Prop := (s.threads.getD s.cur {}).storeBuffer = []

theorem Woke.doLoad (h : s.dryrun = none) (hstores : s.NoStores) (ml : SymAddrSize) :
    Woke s (ml.bytes.map .r) (s.doLoad ml).2 := by
  unfold TSOTraceBuilder.doLoad
  rw [dryOr_live h, hstores]
  exact Woke.foldl h .r ml.bytes

theorem Woke.doAtomicStore (h : s.dryrun = none) (ml : SymAddrSize) :
    Woke s (ml.bytes.map .w) (s.doAtomicStore ml).2 := by
  unfold TSOTraceBuilder.doAtomicStore
  rw [dryOr_live h]
  exact Woke.foldl h .w ml.bytes

/-- The result `r` of a call with the events `es`: all accesses of the events
are made when they are accepted, else those of some of them. -/
def Performs (s : TSOTraceBuilder) (es : Sym) (accepted : Bool) (r : Result) : Prop :=
  ∃ es', (∀ e ∈ es', e ∈ es) ∧ (accepted = true → es' = es) ∧
    Woke s (es'.flatMap SymEv.accesses) r.2

theorem Performs.all {accepted : Bool} {r : Result}
    (h : Woke s (es.flatMap SymEv.accesses) r.2) : Performs s es accepted r :=
  ⟨es, fun _ he => he, fun _ => rfl, h⟩

/-- Two calls, the second one only if the first one returns true. -/
theorem Performs.andThen {acc acc' : Bool} {r : Result} {k : TSOTraceBuilder → Result}
    (h : Performs s es acc r) (hacc : acc' = true → acc = true ∧ r.1 = true)
    (hk : r.2.dryrun = none → Performs r.2 es' acc' (k r.2)) :
    Performs s (es ++ es') acc' (if r.1 then k r.2 else (false, r.2)) := by
  obtain ⟨done, hdone, hall, hwoke⟩ := h
  cases hr : r.1 with
  | true =>
    obtain ⟨done', hdone', hall', hwoke'⟩ := hk hwoke.dryrun
    refine ⟨done ++ done', ?_, ?_, ?_⟩
    · intro e he
      rcases List.mem_append.mp he with he | he
      · exact List.mem_append_left _ (hdone e he)
      · exact List.mem_append_right _ (hdone' e he)
    · intro hacc'
      rw [hall (hacc hacc').1, hall' hacc']
    · rw [List.flatMap_append]
      exact hwoke.trans hwoke'
  | false =>
    refine ⟨done, fun e he => List.mem_append_left _ (hdone e he), fun hacc' => ?_, hwoke⟩
    rw [hr] at hacc
    cases (hacc hacc').2

theorem Performs.recording (h : s.dryrun = none) {e : SymEv} {acc : Bool}
    {k : TSOTraceBuilder → Result} (hacc : acc = true → s.accepts e = true)
    (hk : ∀ s', s' = (s.recordSymbolic e).2 → Woke s [] s' → Performs s' es acc (k s')) :
    Performs s es acc (s.recording e k) := by
  have hrecord := Woke.recordSymbolic h e
  have hnone : Performs s [] (s.accepts e) (s.recordSymbolic e) :=
    ⟨[], fun _ h => h, fun _ => rfl, hrecord⟩
  exact hnone.andThen (fun hes => ⟨hacc hes, (recordSymbolic_fst h e).trans (hacc hes)⟩)
    fun _ => hk _ rfl hrecord

theorem acceptsAll_singleton {e : SymEv} : s.acceptsAll [e] = s.accepts e :=
  Bool.and_true _

theorem Performs.synchronise (h : s.dryrun = none) {e : SymEv} {m : SymAddr}
    {k : TSOTraceBuilder → Result}
    (hk : ∀ s' : TSOTraceBuilder, s'.dryrun = none → Woke s' e.accesses (k s').2) :
    Performs s [e] (s.accepts e) (s.synchronise e m k) := by
  refine Performs.recording h id fun s' _ hs' => ?_
  rw [dryOr_live hs'.dryrun]
  exact Performs.all (by simpa using hk s' hs'.dryrun)

theorem synchronise_accepted (h : s.dryrun = none) {e : SymEv} (hacc : s.accepts e = true)
    (m : SymAddr) (k : TSOTraceBuilder → Result) :
    s.synchronise e m k = k (s.recordSymbolic e).2 := by
  unfold TSOTraceBuilder.synchronise TSOTraceBuilder.recording
  simp only [recordSymbolic_fst h, hacc, if_true, dryOr_live (Woke.recordSymbolic h e).dryrun]

theorem performs_mutexLock (h : s.dryrun = none) (m : SymAddr) :
    Performs s [.mLock m.one] (s.accepts (.mLock m.one)) (s.mutexLock m) :=
  Performs.synchronise h fun _ h => ⟨rfl, rfl, h⟩

theorem performs_mutexUnlock (h : s.dryrun = none) (m : SymAddr) :
    Performs s [.mUnlock m.one] (s.accepts (.mUnlock m.one)) (s.mutexUnlock m) :=
  Performs.synchronise h fun _ h => ⟨rfl, rfl, h⟩

theorem Woke.noStores (h : Woke s [] s') (hstores : s.NoStores) : s'.NoStores := by
  unfold NoStores
  rw [h.threads, h.cur]
  exact hstores

theorem performs_doLoad (h : s.dryrun = none) (hstores : s.NoStores) (ml : SymAddrSize)
    {e : SymEv} (he : e.accesses = ml.bytes.map .r) :
    Performs s [e] (s.accepts e) (s.recording e fun s => s.doLoad ml) := by
  refine Performs.recording h id fun s' _ hs' => Performs.all ?_
  show Woke s' (e.accesses ++ []) _
  rw [List.append_nil, he]
  exact Woke.doLoad hs'.dryrun (hs'.noStores hstores) ml

theorem performs_doAtomicStore (h : s.dryrun = none) (ml : SymAddrSize) {e : SymEv}
    (he : e.accesses = ml.bytes.map .w) :
    Performs s [e] (s.accepts e) (s.recording e fun s => s.doAtomicStore ml) := by
  refine Performs.recording h id fun s' _ hs' => Performs.all ?_
  show Woke s' (e.accesses ++ []) _
  rw [List.append_nil, he]
  exact Woke.doAtomicStore hs'.dryrun ml

theorem performs_exchange (h : s.dryrun = none) (hstores : s.NoStores) (ml : SymAddrSize)
    {e : SymEv} (he : e.accesses = ml.bytes.map .r ++ ml.bytes.map .w) :
    Performs s [e] (s.accepts e)
      (s.recording e fun s => (s.doLoad ml).2.doAtomicStore ml) := by
  refine Performs.recording h id fun s' _ hs' => Performs.all ?_
  show Woke s' (e.accesses ++ []) _
  rw [List.append_nil, he]
  have hload := Woke.doLoad hs'.dryrun (hs'.noStores hstores) ml
  exact hload.trans (Woke.doAtomicStore hload.dryrun ml)

theorem performs_condSignal (h : s.dryrun = none) (c : SymAddr) :
    Performs s [.cSignal c.one] (s.accepts (.cSignal c.one)) (s.condSignal c) := by
  refine Performs.synchronise h fun s' h => ?_
  have hwake : Woke s' [.w c] (s'.wakeup (.w c)) := Woke.wakeup h (.w c)
  show Woke s' [.w c] _
  dsimp only
  split
  case h_1 => exact hwake
  case h_2 cond _ =>
    split
    · have halt := hwake.trans (Woke.recordSymbolic hwake.dryrun (.nondet cond.waiters.length))
      split
      · exact ⟨halt.threads, halt.cur, halt.dryrun⟩
      · exact halt
    · exact ⟨hwake.threads, hwake.cur, hwake.dryrun⟩

theorem performs_waitOn (h : s.dryrun = none) (c : SymAddr) :
    Performs s [.cWait c.one] (s.accepts (.cWait c.one)) (s.waitOn c) := by
  refine Performs.recording h id fun s' _ hs' => Performs.all ?_
  rw [dryOr_live hs'.dryrun]
  dsimp only
  split
  all_goals exact ⟨rfl, rfl, hs'.dryrun⟩

theorem performs_cAwake (h : s.dryrun = none) (c : SymAddr) :
    Performs s [.cAwake c.one] (s.accepts (.cAwake c.one))
      (s.recording (.cAwake c.one) fun s => (true, s)) :=
  Performs.recording h id fun _ _ hs' => Performs.all ⟨rfl, rfl, hs'.dryrun⟩

/-- Two events that are accepted one after the other. -/
theorem Performs.two {e e' : SymEv} {r : Result} {k : TSOTraceBuilder → Result} {acc : Bool}
    (h : Performs s [e] (s.accepts e) r) (hacc : acc = true → s.acceptsAll [e, e'] = true)
    (hr : s.accepts e = true →
      r.1 = true ∧ r.2.accepts e' = (s.recordSymbolic e).2.accepts e')
    (hk : r.2.dryrun = none → Performs r.2 [e'] (r.2.accepts e') (k r.2)) :
    Performs s [e, e'] acc (if r.1 then k r.2 else (false, r.2)) := by
  have hboth (ha : acc = true) :
      s.accepts e = true ∧ (s.recordSymbolic e).2.accepts e' = true := by
    simpa [acceptsAll] using hacc ha
  refine Performs.andThen h (fun ha => ⟨(hboth ha).1, (hr (hboth ha).1).1⟩) fun hdry => ?_
  obtain ⟨done, hdone, hall, hwoke⟩ := hk hdry
  refine ⟨done, hdone, fun ha => hall ?_, hwoke⟩
  rw [(hr (hboth ha).1).2]
  exact (hboth ha).2

theorem performs_condWait (h : s.dryrun = none) (c m : SymAddr) :
    Performs s [.mUnlock m.one, .cWait c.one] (s.performs (.condWait c m)) (s.condWait c m) := by
  unfold condWait
  cases howns : s.ownsMutex m with
  | false =>
    rw [if_pos ⟨h, rfl⟩]
    refine ⟨[], fun _ h => (by cases h), fun hp => ?_, rfl, rfl, h⟩
    simp [performs, howns] at hp
  | true =>
    rw [if_neg (by simp)]
    refine Performs.two (k := fun s => s.waitOn c) (performs_mutexUnlock h m)
      (fun hp => (Bool.and_eq_true_iff.mp hp).1) (fun hacc => ?_)
      fun hdry => performs_waitOn hdry c
    unfold mutexUnlock
    rw [synchronise_accepted h hacc]
    exact ⟨rfl, rfl⟩

theorem performs_condAwake (h : s.dryrun = none) (c m : SymAddr) :
    Performs s [.mLock m.one, .cAwake c.one] (s.performs (.condAwake c m))
      (s.condAwake c m) := by
  refine Performs.two (k := fun s => s.recording (.cAwake c.one) fun s => (true, s))
    (performs_mutexLock h m) (fun hp => (Bool.and_eq_true_iff.mp hp).1) (fun hacc => ?_)
    fun hdry => performs_cAwake hdry c
  unfold mutexLock
  rw [synchronise_accepted h hacc]
  exact ⟨rfl, rfl⟩

theorem performs_condInit (h : s.dryrun = none) (c : SymAddr) :
    Performs s [.cInit c.one] (s.accepts (.cInit c.one)) (s.condInit c) := by
  refine Performs.synchronise h fun s' h => ?_
  split
  all_goals exact ⟨rfl, rfl, h⟩

theorem performs_condBroadcast (h : s.dryrun = none) (c : SymAddr) :
    Performs s [.cBrdcst c.one] (s.accepts (.cBrdcst c.one)) (s.condBroadcast c) := by
  refine Performs.synchronise h fun s' h => ?_
  dsimp only
  split
  all_goals exact ⟨rfl, rfl, h⟩

theorem performs_condDestroy (h : s.dryrun = none) (c : SymAddr) :
    Performs s [.cDelete c.one] (s.accepts (.cDelete c.one)) (s.condDestroy c) := by
  refine Performs.synchronise h fun s' h => ?_
  dsimp only
  split
  all_goals exact ⟨rfl, rfl, h⟩

theorem performs_fullMemoryConflict (h : s.dryrun = none) :
    Performs s [.fullmem] (s.accepts .fullmem) s.fullMemoryConflict := by
  refine Performs.recording h id fun s' _ hs' => Performs.all ?_
  rw [dryOr_live hs'.dryrun]
  exact Woke.wakeup hs'.dryrun .wAllMemory

theorem Performs.single {e : SymEv} {op : Op} {r : Result}
    (h : Performs s [e] (s.accepts e) r) (hop : op.events s.conf = [e]) :
    Performs s (op.events s.conf) (s.performs op) r := by
  obtain ⟨done, hdone, hall, hwoke⟩ := h
  rw [hop]
  refine ⟨done, hdone, fun hp => hall ?_, hwoke⟩
  have hacc := (Bool.and_eq_true_iff.mp hp).1
  rwa [hop, acceptsAll_singleton] at hacc

/-- Outside a dry run an operation wakes threads with the accesses of its
events. -/
theorem performs_execute (h : s.dryrun = none) (hstores : s.NoStores) (op : Op) :
    Performs s (op.events s.conf) (s.performs op) (op.execute s) := by
  cases op with
  | load ml => exact (performs_doLoad h hstores ml.range (List.append_nil _)).single rfl
  | atomicStore ml written =>
    refine (performs_doAtomicStore h ml.range ?_).single rfl
    split <;> rfl
  | compareExchange ml written expected success =>
    cases success with
    | true => exact (performs_exchange h hstores ml.range rfl).single rfl
    | false => exact (performs_doLoad h hstores ml.range (List.append_nil _)).single rfl
  | fullMemoryConflict => exact (performs_fullMemoryConflict h).single rfl
  | mutexLock m => exact (performs_mutexLock h m).single rfl
  | mutexLockFail m => exact Performs.all ⟨rfl, rfl, h⟩
  | mutexTrylock m =>
    exact (Performs.synchronise h fun _ h => ⟨rfl, rfl, h⟩).single rfl
  | mutexUnlock m => exact (performs_mutexUnlock h m).single rfl
  | mutexInit m => exact (Performs.synchronise h fun _ h => ⟨rfl, rfl, h⟩).single rfl
  | mutexDestroy m => exact (Performs.synchronise h fun _ h => ⟨rfl, rfl, h⟩).single rfl
  | condInit c => exact (performs_condInit h c).single rfl
  | condSignal c => exact (performs_condSignal h c).single rfl
  | condBroadcast c => exact (performs_condBroadcast h c).single rfl
  | condWait c m => exact performs_condWait h c m
  | condAwake c m => exact performs_condAwake h c m
  | condDestroy c => exact (performs_condDestroy h c).single rfl

/-! ## An operation in a dry run -/

/-- In a dry run the events `es` are noted for the thread `p`. -/
structure NotedFor (s : TSOTraceBuilder) (p : Nat) (es : Sym) (s' : TSOTraceBuilder) : Prop where
  threads : s'.threads = s.threads.modify p fun t => es.foldl Thread.noteEvent t
  cur : s'.cur = s.cur
  dryrun : s'.dryrun = some p

variable {p : Nat}

theorem NotedFor.trans (h : NotedFor s p es s') (h' : NotedFor s' p es' s'') :
    NotedFor s p (es ++ es') s'' where
  threads := by
    rw [h'.threads, h.threads, List.modify_modify_eq]
    congr 1
    funext t
    exact (List.foldl_append ..).symm
  cur := h'.cur.trans h.cur
  dryrun := h'.dryrun

theorem recording_dry (h : s.dryrun = some p) (e : SymEv) (k : TSOTraceBuilder → Result) :
    s.recording e k = k (s.modifyThread p (Thread.noteSym e)) := by
  unfold recording recordSymbolic
  rw [h]
  rfl

theorem recording_snd (e : SymEv) :
    (s.recording e fun s => (true, s)).2 = (s.recordSymbolic e).2 := by
  unfold recording
  dsimp only
  split <;> rfl

theorem dryOr_dry (h : s.dryrun = some p) (note : Thread → Thread)
    (k : TSOTraceBuilder → Result) : s.dryOr note k = (true, s.modifyThread p note) := by
  unfold dryOr
  rw [h]

/-- An event is recorded, and its bytes are noted. -/
theorem NotedFor.record (h : s.dryrun = some p) {e : SymEv} {note : Thread → Thread}
    (hnote : ∀ t : Thread, note (t.noteSym e) = t.noteEvent e) (k : TSOTraceBuilder → Result) :
    NotedFor s p [e] (s.recording e fun s => s.dryOr note k).2 := by
  have hdry : (s.modifyThread p (Thread.noteSym e)).dryrun = some p := h
  rw [recording_dry h, dryOr_dry hdry]
  refine ⟨?_, rfl, h⟩
  show (s.threads.modify p (Thread.noteSym e)).modify p note = _
  rw [List.modify_modify_eq]
  congr 1
  funext t
  exact hnote t

theorem noteReads_noteSym {e : SymEv} (h : e.role = .load ∨ e.role = .wait) (t : Thread) :
    (t.noteSym e).noteReads e.addr.bytes = t.noteEvent e := by
  rcases h with h | h <;>
    simp [Thread.noteSym, Thread.noteReads, Thread.noteEvent, h, Role.notesRead, Role.notesWrite]

theorem noteWrites_noteSym {e : SymEv}
    (h : e.role = .store ∨ e.role = .unobsStore ∨ e.role = .init ∨ e.role = .sync) (t : Thread) :
    (t.noteSym e).noteWrites e.addr.bytes = t.noteEvent e := by
  rcases h with h | h | h | h <;>
    simp [Thread.noteSym, Thread.noteWrites, Thread.noteEvent, h, Role.notesRead, Role.notesWrite]

theorem NotedFor.load (h : s.dryrun = some p) (ml : SymAddrSize) {e : SymEv}
    (he : e.role = .load) (haddr : e.addr = ml) :
    NotedFor s p [e] (s.recording e fun s => s.doLoad ml).2 := by
  subst haddr
  exact NotedFor.record h (noteReads_noteSym (.inl he)) _

theorem NotedFor.synchronise (h : s.dryrun = some p) {e : SymEv} {m : SymAddr}
    (he : e.role = .init ∨ e.role = .sync) (haddr : e.addr = m.one)
    (k : TSOTraceBuilder → Result) : NotedFor s p [e] (s.synchronise e m k).2 := by
  refine NotedFor.record h (fun t => ?_) k
  have hnote := noteWrites_noteSym (.inr (.inr he)) t
  rwa [haddr] at hnote

theorem synchronise_dry (h : s.dryrun = some p) (e : SymEv) (m : SymAddr)
    (k : TSOTraceBuilder → Result) : (s.synchronise e m k).1 = true := by
  unfold TSOTraceBuilder.synchronise
  have hdry : (s.modifyThread p (Thread.noteSym e)).dryrun = some p := h
  rw [recording_dry h, dryOr_dry hdry]

theorem NotedFor.exchange (h : s.dryrun = some p) (ml : SymAddrSize) {e : SymEv}
    (he : e.role = .cmpxhg) (haddr : e.addr = ml) :
    NotedFor s p [e] (s.recording e fun s => (s.doLoad ml).2.doAtomicStore ml).2 := by
  have hdry : (s.modifyThread p (Thread.noteSym e)).dryrun = some p := h
  rw [recording_dry h]
  unfold doLoad doAtomicStore
  rw [dryOr_dry hdry]
  rw [dryOr_dry (p := p)]
  case h => exact h
  refine ⟨?_, rfl, h⟩
  show ((s.threads.modify p _).modify p _).modify p _ = _
  rw [List.modify_modify_eq, List.modify_modify_eq]
  congr 1
  funext t
  simp [Thread.noteSym, Thread.noteReads, Thread.noteWrites, Thread.noteEvent, he, haddr,
    Role.notesRead, Role.notesWrite]

theorem noteFullMemoryConflict_noteSym (t : Thread) :
    (t.noteSym .fullmem).noteFullMemoryConflict = t.noteEvent .fullmem := by
  simp [Thread.noteSym, Thread.noteFullMemoryConflict, Thread.noteEvent, SymEv.role,
    SymEv.fullmem, Role.notesRead, Role.notesWrite]

theorem noteSym_eq {e : SymEv} (hr : e.role.notesRead = false) (hw : e.role.notesWrite = false)
    (hfull : e.role ≠ .fullmem) (t : Thread) : t.noteSym e = t.noteEvent e := by
  simp [Thread.noteSym, Thread.noteEvent, hr, hw, hfull]

/-- An event without notes is recorded. -/
theorem NotedFor.recordSymbolic (h : s.dryrun = some p) {e : SymEv}
    (hr : e.role.notesRead = false) (hw : e.role.notesWrite = false)
    (hfull : e.role ≠ .fullmem) : NotedFor s p [e] (s.recordSymbolic e).2 := by
  unfold TSOTraceBuilder.recordSymbolic
  rw [h]
  refine ⟨?_, rfl, h⟩
  show s.threads.modify p (Thread.noteSym e) = _
  congr 1
  funext t
  exact noteSym_eq hr hw hfull t

/-- In a dry run the events of an operation are noted. -/
theorem notedFor_execute (h : s.dryrun = some p) (op : Op) :
    NotedFor s p (op.events s.conf) (op.execute s).2 := by
  cases op with
  | load ml => exact NotedFor.load h ml.range rfl rfl
  | atomicStore ml written =>
    refine NotedFor.record h (fun t => ?_) _
    split
    · exact noteWrites_noteSym (e := .unobsStore ml.range written) (.inr (.inl rfl)) t
    · exact noteWrites_noteSym (e := .store ml.range written) (.inl rfl) t
  | compareExchange ml written expected success =>
    cases success with
    | true => exact NotedFor.exchange h ml.range rfl rfl
    | false => exact NotedFor.load h ml.range rfl rfl
  | fullMemoryConflict => exact NotedFor.record h noteFullMemoryConflict_noteSym _
  | mutexLock m => exact NotedFor.synchronise h (.inr rfl) rfl _
  | mutexLockFail m => exact ⟨(List.modify_id ..).symm, rfl, h⟩
  | mutexTrylock m => exact NotedFor.synchronise h (.inr rfl) rfl _
  | mutexUnlock m => exact NotedFor.synchronise h (.inr rfl) rfl _
  | mutexInit m => exact NotedFor.synchronise h (.inl rfl) rfl _
  | mutexDestroy m => exact NotedFor.synchronise h (.inr rfl) rfl _
  | condInit c => exact NotedFor.synchronise h (.inl rfl) rfl _
  | condSignal c => exact NotedFor.synchronise h (.inr rfl) rfl _
  | condBroadcast c => exact NotedFor.synchronise h (.inr rfl) rfl _
  | condWait c m =>
    have hunlock : NotedFor s p [.mUnlock m.one] (s.mutexUnlock m).2 :=
      NotedFor.synchronise h (.inr rfl) rfl _
    have hwait : NotedFor (s.mutexUnlock m).2 p [.cWait c.one]
        ((s.mutexUnlock m).2.waitOn c).2 :=
      NotedFor.record hunlock.dryrun (noteReads_noteSym (e := .cWait c.one) (.inr rfl)) _
    show NotedFor s p ([.mUnlock m.one] ++ [.cWait c.one]) (s.condWait c m).2
    unfold condWait
    rw [if_neg (by simp [h])]
    dsimp only
    rw [show (s.mutexUnlock m).1 = true from synchronise_dry h _ _ _]
    exact hunlock.trans hwait
  | condAwake c m =>
    have hlock : NotedFor s p [.mLock m.one] (s.mutexLock m).2 :=
      NotedFor.synchronise h (.inr rfl) rfl _
    have hawake : NotedFor (s.mutexLock m).2 p [.cAwake c.one] _ :=
      NotedFor.recordSymbolic hlock.dryrun rfl rfl nofun
    show NotedFor s p ([.mLock m.one] ++ [.cAwake c.one]) (s.condAwake c m).2
    unfold condAwake
    dsimp only
    rw [show (s.mutexLock m).1 = true from synchronise_dry h _ _ _, if_pos rfl, recording_snd]
    exact hlock.trans hawake
  | condDestroy c => exact NotedFor.synchronise h (.inr rfl) rfl _

end TSOTraceBuilder

end ViEqui.Tso
