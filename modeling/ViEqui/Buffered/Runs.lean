import ViEqui.Buffered.Waiting

/-!
# Runs of the interpreter

What one scheduled thread does, and from it what holds in every run.

* `visit_spec`: an instruction that is not refused does what the reference says,
  or fails as `failure` has it.
* `checkRefuse_eq_none`, `refused`: an instruction is refused when it needs
  something that has not come, and then its thread waits for that.
* `Reachable.inv`: the invariant and the reference at every state of a run.
-/

namespace ViEqui.Buffered

open Function (update)
open Tso (SymAddr ByteRange)

variable {σ B : Type} {M : Buffering B} {Leaves : List Store → Store → Prop}
  {Holds : B → List Store → Await → Prop} {code : σ → Instr σ}

/-- The program in state `s`, with the pending stores `ws`. -/
def State.reference (s : State σ B) (ws : Nat → List Store) : Reference σ where
  size := s.size
  ecStack := s.ecStack
  assumeBlocked := s.assumeBlocked
  pendingMutexLock := s.pendingMutexLock
  owner := s.owner
  memory := s.memory
  pending := ws

/-- How an instruction that is not refused fails.  An assertion fails at the lock of a
locked mutex, at `pthread_cond_wait` with a mutex that the thread locked last and has
unlocked since, and at a signal whose alternative is not a waiter. -/
def failure (s : State σ B) (p alt : Nat) : Instr σ → Option Failure
  | .join tid _ => if tid < s.size ∧ tid ≠ p then none else some .error
  | .mutexLock lck _ => if s.owner lck = none then none else some .assertion
  | .mutexUnlock lck _ => if s.owner lck = some p then none else some .error
  | .condInit cnd _ => if s.condVars cnd = none then none else some .error
  | .condSignal cnd _ =>
    match s.condVars cnd with
    | none => some .error
    | some l => if l ≠ [] ∧ l.length ≤ alt then some .assertion else none
  | .condBroadcast cnd _ => if s.condVars cnd = none then some .error else none
  | .condWait cnd lck _ =>
    if s.lastLock lck ≠ some p ∨ s.condVars cnd = none then some .error
    else if s.owner lck = some p then none
    else some .assertion
  | _ => none

/-- The state after `doPthreadCondAwake`. -/
def State.awoken (s : State σ B) (p : Nat) : State σ B :=
  match s.pendingMutexLock p with
  | some lck =>
    { s with
      lastLock := update s.lastLock lck (some p)
      owner := update s.owner lck (some p)
      pendingMutexLock := update s.pendingMutexLock p none }
  | none => s

/-- A result that keeps the invariant in a state of the program with the property
`R`, or the failure `f`. -/
def Follows (Holds : B → List Store → Await → Prop) (code : σ → Instr σ)
    (R : Reference σ → Prop) (f : Option Failure) : Except Failure (State σ B) → Prop
  | .ok s => (∃ r ws, Inv Holds code s r ws ∧ R (s.reference ws)) ∧ f = none
  | .error e => f = some e

/-- Instruction `i` of thread `p` does what the reference says, or fails. -/
def Does (Holds : B → List Store → Await → Prop) (code : σ → Instr σ) (s : State σ B)
    (ws : Nat → List Store) (p alt : Nat) (i : Instr σ) : Except Failure (State σ B) → Prop :=
  Follows Holds code (fun c => (s.reference ws).exec p i = some c) (failure s p alt i)

variable {s : State σ B} {r : Nat → Reason} {ws : Nat → List Store} {p alt : Nat}

namespace Inv

theorem follows {s' : State σ B} {r' : Nat → Reason} {ws' : Nat → List Store}
    {R : Reference σ → Prop} {f : Option Failure} (h : Inv Holds code s' r' ws')
    (hR : R (s'.reference ws')) (hf : f = none) : Follows Holds code R f (.ok s') :=
  ⟨⟨r', ws', h, hR⟩, hf⟩

/-- A thread that is woken after it was ready, is ready. -/
theorem goOn_of_wake {ps : List Nat} {s' : State σ B}
    (h : Inv Holds code s' (fun q => if q ∈ ps then .ready else r q) ws) (hp : r p = .ready)
    (f : σ) : Inv Holds code (s'.goOn p f) (fun q => if q ∈ ps then .ready else r q) ws := by
  apply h.goOn
  show (if p ∈ ps then Reason.ready else r p) = .ready
  split
  · rfl
  · exact hp

/-- A waiter of a condition variable is not available. -/
theorem waiter_unavailable (h : Inv Holds code s r ws) {cnd : SymAddr} {l : List Nat}
    (hl : s.condVars cnd = some l) {q : Nat} (hq : q ∈ l) : s.available q = false := by
  have hr := (h.waiters cnd l hl).2 q hq
  rw [← Bool.not_eq_true, h.available q, hr]
  exact nofun

theorem fence_ok (L : M.Lawful Leaves Holds) (h : Inv Holds code s r ws) (hw : ws p = []) :
    fence M s p = .ok () :=
  if_pos ((L.allEmpty (h.holds p)).2 hw)

/-- `mutex_lock` and `PthreadMutex::lock`. -/
theorem lockMutex_eq (L : M.Lawful Leaves Holds) (h : Inv Holds code s r ws) (hw : ws p = [])
    {lck : SymAddr} (hfree : s.owner lck = none) :
    lockMutex M s p lck = .ok { s with
      lastLock := update s.lastLock lck (some p), owner := update s.owner lck (some p) } := by
  unfold lockMutex
  rw [h.fence_ok L hw, hfree]
  rfl

/-! ## Instructions of a ready thread -/

section Ready

variable (L : M.Lawful Leaves Holds) (h : Inv Holds code s r ws) (hp : r p = .ready)
  {next : σ} {cnd lck : SymAddr}

include h hp

theorem callAssume_spec {cond : Bool} :
    Does Holds code s ws p alt (.assume cond next) (.ok (callAssume s p cond next)) := by
  unfold callAssume
  cases cond with
  | true => exact (h.goOn hp _).follows rfl rfl
  | false =>
    have hfin := h.finish hp (fun q hq => Function.update_of_ne hq true s.assumeBlocked)
      (.inr (Function.update_self ..))
    exact hfin.follows rfl rfl

include L

theorem visitLoadInst_spec {ml : ByteRange} {k : List UInt8 → σ}
    (hread : Readable ml.range (ws p)) :
    Does Holds code s ws p alt (.load ml k) (visitLoadInst M s p ml k) := by
  unfold visitLoadInst
  rw [L.load s.memory (h.holds p) ml.size_pos hread]
  exact (h.goOn hp _).follows (if_pos hread) rfl

theorem visitStoreInst_spec {sd : Store} {sc : Bool} (hpend : s.pendingMutexLock p = none)
    (hw : sc = true → ws p = []) :
    Does Holds code s ws p alt (.store sd sc next) (visitStoreInst M s p sd sc next) := by
  unfold visitStoreInst
  cases sc with
  | true =>
    rw [if_pos rfl, h.fence_ok L (hw rfl)]
    exact ((h.memory _ s.lastLock).goOn hp _).follows rfl rfl
  | false =>
    rw [if_neg nofun]
    have hb := h.holds p
    rw [hp] at hb
    exact ((h.store hp hpend (L.store sd hb)).goOn hp _).follows rfl rfl

/-- The end of a thread, and the threads that wait for it. -/
theorem terminate_spec : ∃ r', Inv Holds code (Buffered.finish (terminate M s p) p) r' ws := by
  unfold terminate
  by_cases hw : ws p = []
  · rw [if_pos ((L.allEmpty (h.holds p)).2 hw)]
    -- First as if the thread were blocked: then nobody can join it yet.
    have hfin := h.finish hp (fun q hq => Function.update_of_ne hq true s.assumeBlocked)
      (.inr (Function.update_self ..))
    have hall : ∀ q ∈ s.awaitingJoin p, update r p .finished q = .join p := by
      have := h.awaiting
      have := h.ecStack_ne hp
      grind [Function.update_apply]
    have hjoined := hfin.joined (Function.update_self ..) hw hall
      (fun q hq => (Function.update_of_ne hq true s.assumeBlocked).symm)
    refine ⟨fun q => if q ∈ s.awaitingJoin p then .ready else update r p .finished q, ?_⟩
    have hav : (Buffered.finish (s.markAvailable (s.awaitingJoin p)) p).available =
        ((Buffered.finish s p).markAvailable (s.awaitingJoin p)).available := by
      funext q
      have := hall p
      simp only [Buffered.finish, State.markAvailable, State.markUnavailable,
        Function.update_apply] at this ⊢
      grind
    show Inv Holds code { (Buffered.finish s p).markAvailable (s.awaitingJoin p) with
      available := (Buffered.finish (s.markAvailable (s.awaitingJoin p)) p).available
      assumeBlocked := s.assumeBlocked } _ ws
    rw [hav]
    exact hjoined
  · rw [if_neg fun hempty => hw ((L.allEmpty (h.holds p)).1 hempty)]
    exact ⟨_, h.finish hp (fun q _ => rfl) (.inl hw)⟩

theorem terminate_follows : Follows Holds code
    (fun c => some { s.reference ws with ecStack := update s.ecStack p none } = some c) none
    (.ok (Buffered.finish (terminate M s p) p)) := by
  obtain ⟨r', hinv⟩ := h.terminate_spec L hp
  refine hinv.follows ?_ rfl
  unfold terminate
  split
  · rfl
  · rfl

variable (hw : ws p = [])

include hw

theorem visitAtomicRMW_spec {ml : ByteRange} {f : List UInt8 → Option Store}
    {k : List UInt8 → σ} :
    Does Holds code s ws p alt (.rmw ml f k) (visitAtomicRMW M s p ml f k) := by
  have hold : (s.reference ws).memory = s.memory := rfl
  simp only [visitAtomicRMW, Does, Reference.exec, h.fence_ok L hw, bind, Except.bind, hold]
  cases f (ml.range.bytes.map s.memory) with
  | some sd => exact ((h.memory _ s.lastLock).goOn hp _).follows rfl rfl
  | none => exact (h.goOn hp _).follows rfl rfl

theorem callPthreadCreate_spec {child : σ} {k : Nat → σ} :
    Does Holds code s ws p alt (.create child k) (callPthreadCreate M s p child k) := by
  unfold callPthreadCreate
  rw [h.fence_ok L hw]
  have hne : p ≠ s.size := Nat.ne_of_lt (h.lt_size hp)
  exact ((h.create child).goOn ((Function.update_of_ne hne ..).trans hp) _).follows rfl rfl

theorem callPthreadJoin_spec {tid : Nat} (hjoin : tid < s.size → tid ≠ p → Joinable s ws tid) :
    Does Holds code s ws p alt (.join tid next) (callPthreadJoin M s p tid next) := by
  unfold callPthreadJoin
  split
  · next hvalid =>
    obtain ⟨hnone, hempty, hb⟩ := hjoin hvalid.1 hvalid.2
    rw [hnone, if_neg nofun, h.fence_ok L hw, h.fence_ok L hempty]
    refine (h.goOn hp _).follows (if_pos ⟨hvalid.1, ?_, ?_, hb⟩) (if_pos hvalid)
    · exact Option.isNone_iff_eq_none.2 hnone
    · exact List.isEmpty_iff.2 hempty
  · next hinvalid => exact if_neg hinvalid

theorem callPthreadMutexLock_spec :
    Does Holds code s ws p alt (.mutexLock lck next) (callPthreadMutexLock M s p lck next) := by
  unfold callPthreadMutexLock
  by_cases hfree : s.owner lck = none
  · rw [h.lockMutex_eq L hw hfree]
    exact ((h.lock lck).goOn hp _).follows (if_pos hfree) (if_pos hfree)
  · have hbad : lockMutex M s p lck = .error .assertion := by
      unfold lockMutex
      rw [h.fence_ok L hw]
      exact if_pos (Option.isSome_iff_ne_none.2 hfree)
    rw [hbad]
    exact if_neg hfree

theorem callPthreadMutexUnlock_spec :
    Does Holds code s ws p alt (.mutexUnlock lck next)
      (callPthreadMutexUnlock M s p lck next) := by
  simp only [callPthreadMutexUnlock, h.fence_ok L hw, bind, Except.bind]
  split
  · next hown =>
    exact ((h.unlock lck).goOn_of_wake hp next).follows (if_pos hown) (if_pos hown)
  · next hown => exact if_neg hown

theorem callPthreadCondInit_spec :
    Does Holds code s ws p alt (.condInit cnd next) (callPthreadCondInit M s p cnd next) := by
  simp only [callPthreadCondInit, Does, failure, h.fence_ok L hw, bind, Except.bind]
  cases hnone : s.condVars cnd with
  | some l => exact if_neg nofun
  | none => exact ((h.condInit hnone).goOn hp next).follows rfl (if_pos rfl)

theorem callPthreadCondSignal_spec :
    Does Holds code s ws p alt (.condSignal cnd next)
      (callPthreadCondSignal M s p alt cnd next) := by
  simp only [callPthreadCondSignal, Does, failure, h.fence_ok L hw, bind, Except.bind]
  cases hl : s.condVars cnd with
  | none => rfl
  | some l =>
    dsimp only
    cases hq : l[alt]? with
    | none =>
      have hle := List.getElem?_eq_none_iff.1 hq
      by_cases hnil : l = []
      · rw [if_pos hnil]
        exact (h.goOn hp next).follows rfl (if_neg fun hbad => hbad.1 hnil)
      · rw [if_neg hnil]
        exact if_pos ⟨hnil, hle⟩
    | some q =>
      obtain ⟨hlt, hget⟩ := List.getElem?_eq_some_iff.1 hq
      have hmem : q ∈ l := hget ▸ List.getElem_mem hlt
      have hnodup := (h.waiters cnd l hl).1
      dsimp only
      rw [h.waiter_unavailable hl hmem, if_neg Bool.false_ne_true]
      have hrest : l.eraseIdx alt = l.erase q := by
        rw [← hget, hnodup.erase_getElem]
      have hinv := h.signal [q] _ hl (by simpa using hmem) (l.eraseIdx_sublist alt)
        (by simp +contextual [hrest, hnodup.mem_erase_iff])
      exact (hinv.goOn_of_wake hp next).follows rfl (if_neg fun hbad => Nat.not_lt.2 hbad.2 hlt)

theorem callPthreadCondBroadcast_spec :
    Does Holds code s ws p alt (.condBroadcast cnd next)
      (callPthreadCondBroadcast M s p cnd next) := by
  simp only [callPthreadCondBroadcast, Does, failure, h.fence_ok L hw, bind, Except.bind]
  cases hl : s.condVars cnd with
  | none => exact if_pos rfl
  | some l =>
    have hany : l.any s.available = false := by
      rw [List.any_eq_false]
      intro q hq
      rw [h.waiter_unavailable hl hq]
      exact nofun
    dsimp only
    rw [if_neg nofun, hany, if_neg nofun]
    have hinv := h.signal l [] hl (fun q hq => hq) (List.nil_sublist l)
      fun q hq => ⟨nofun, fun hnot => absurd hq hnot⟩
    exact (hinv.goOn_of_wake hp next).follows rfl rfl

theorem callPthreadCondWait_spec :
    Does Holds code s ws p alt (.condWait cnd lck next)
      (callPthreadCondWait M s p cnd lck next) := by
  simp only [callPthreadCondWait, Does, failure, h.fence_ok L hw, bind, Except.bind]
  by_cases hlast : s.lastLock lck = some p
  · cases hl : s.condVars cnd with
    | none => simp [hlast, Follows]
    | some l =>
      by_cases hown : s.owner lck = some p
      · have hinv := ((h.goOn hp next).sleep hp hw lck hl).unlock lck
        simp only [hlast, hown, ne_eq, not_true_eq_false, false_or, reduceCtorEq, if_false,
          if_true]
        exact hinv.follows (if_pos hown) rfl
      · simp [hlast, hown, Follows]
  · simp [hlast, Follows]

end Ready

/-- An instruction of a ready thread, when `checkRefuse` lets it pass and no mutex
is to be locked before. -/
theorem visit_spec (L : M.Lawful Leaves Holds) (h : Inv Holds code s r ws) (hp : r p = .ready)
    {i : Instr σ} (hpend : s.pendingMutexLock p = none) (hclear : (s.reference ws).Clear p i) :
    Follows Holds code (fun c => (s.reference ws).visit p i = some c) (failure s p alt i)
      (visit M s p alt i) := by
  have hfence := hclear.fence
  rw [Reference.visit_eq hfence]
  cases i with
  | load ml k => exact h.visitLoadInst_spec L hp (hclear.load ml k rfl)
  | store sd sc next => exact h.visitStoreInst_spec L hp hpend hfence
  | fence next =>
    show Follows _ _ _ _ (fence M s p >>= fun _ => .ok (s.goOn p next))
    rw [h.fence_ok L (hfence rfl)]
    exact (h.goOn hp _).follows rfl rfl
  | rmw ml f k => exact h.visitAtomicRMW_spec L hp (hfence rfl)
  | create child k => exact h.callPthreadCreate_spec L hp (hfence rfl)
  | join tid next => exact h.callPthreadJoin_spec L hp (hfence rfl) (hclear.join tid next rfl)
  | mutexLock lck next => exact h.callPthreadMutexLock_spec L hp (hfence rfl)
  | mutexUnlock lck next => exact h.callPthreadMutexUnlock_spec L hp (hfence rfl)
  | condInit cnd next => exact h.callPthreadCondInit_spec L hp (hfence rfl)
  | condSignal cnd next => exact h.callPthreadCondSignal_spec L hp (hfence rfl)
  | condBroadcast cnd next => exact h.callPthreadCondBroadcast_spec L hp (hfence rfl)
  | condWait cnd lck next => exact h.callPthreadCondWait_spec L hp (hfence rfl)
  | assume cond next => exact h.callAssume_spec hp
  | exit =>
    show Follows _ _ _ _ (fence M s p >>= fun _ => .ok (Buffered.finish (terminate M s p) p))
    rw [h.fence_ok L (hfence rfl)]
    exact h.terminate_follows L hp
  | ret => exact h.terminate_follows L hp
  | other next => exact (h.goOn hp _).follows rfl rfl

end Inv

/-! ## One round of the loop -/

theorem Follows.imp {R R' : Reference σ → Prop} {f : Option Failure}
    {x : Except Failure (State σ B)} (hR : ∀ c, R c → R' c) (h : Follows Holds code R f x) :
    Follows Holds code R' f x := by
  cases x with
  | error e => exact h
  | ok s =>
    obtain ⟨⟨r, ws, hinv, hr⟩, hf⟩ := h
    exact ⟨⟨r, ws, hinv, hR _ hr⟩, hf⟩

theorem Follows.error_iff {R : Reference σ → Prop} {f : Option Failure}
    {x : Except Failure (State σ B)} (h : Follows Holds code R f x) {e : Failure} :
    x = .error e ↔ f = some e := by
  cases x with
  | error e' => simp [show f = some e' from h]
  | ok s => simp [h.2]

theorem Follows.exists_ok {R : Reference σ → Prop} {x : Except Failure (State σ B)}
    (h : Follows Holds code R none x) :
    ∃ s r ws, x = .ok s ∧ Inv Holds code s r ws ∧ R (s.reference ws) := by
  cases x with
  | error e => cases h
  | ok s =>
    obtain ⟨⟨r, ws, hinv, hr⟩, -⟩ := h
    exact ⟨s, r, ws, rfl, hinv, hr⟩

theorem refuseJoin_eq_none {running : Nat → Bool} {i : Instr σ} :
    refuseJoin running s p i = none ↔
      ∀ tid next, i = .join tid next → tid < s.size → tid ≠ p → running tid = false := by
  unfold refuseJoin
  grind

namespace Inv

/-- The start of a run. -/
theorem initial (L : M.Lawful Leaves Holds) (code : σ → Instr σ) (main : σ)
    (memory : SymAddr → UInt8) :
    Inv Holds code (Buffered.initial M main memory) (update (fun _ => .finished) 0 .ready)
      fun _ => [] := by
  refine ⟨fun q => ?_, ?_, ?_, ?_, nofun, ?_, ?_, nofun, ?_, nofun, fun _ _ => rfl, ?_, ?_⟩
  · have hawait : (update (fun _ => Reason.finished) 0 .ready q).await = .no := by
      grind [Function.update_apply, Reason.await]
    rw [hawait]
    exact L.init
  all_goals
    simp only [Buffered.initial, Function.update_apply]
    grind

variable (L : M.Lawful Leaves Holds) (h : Inv Holds code s r ws)

include L h

/-- `checkRefuse` lets an instruction pass exactly when it can be executed. -/
theorem checkRefuse_eq_none {i : Instr σ} :
    checkRefuse M s p i = none ↔ (s.reference ws).Goes p i := by
  have hempty : ∀ t, M.allEmpty (s.buffers t) = true ↔ ws t = [] := fun t => L.allEmpty (h.holds t)
  have hload : refuseLoad M s p i = none ↔
      ∀ ml k, i = .load ml k → Readable ml.range (ws p) := by
    unfold refuseLoad
    split
    · next ml k =>
      rw [Option.map_eq_none_iff, L.refuseLoad_none (h.holds p) ml.size_pos]
      exact ⟨by rintro h _ _ ⟨⟩; exact h, fun h => h ml k rfl⟩
    · next hno => exact ⟨fun _ ml k he => absurd he (hno ml k), fun _ => rfl⟩
  have hfence : refuseFence M s p i = none ↔ (i.isFence = true → ws p = []) := by
    unfold refuseFence
    grind
  have hlock : refuseLock s p i = none ↔ ∀ lck,
      isPthreadMutexLock (s.pendingMutexLock p) i = some lck → s.owner lck = none := by
    unfold refuseLock
    cases isPthreadMutexLock (s.pendingMutexLock p) i with
    | none => simp
    | some lck => cases ho : s.owner lck <;> simp [ho]
  unfold checkRefuse
  rw [Option.or_eq_none_iff, Option.or_eq_none_iff, Option.or_eq_none_iff, Option.or_eq_none_iff,
    refuseJoin_eq_none, refuseJoin_eq_none, hload, hfence, hlock]
  constructor
  · rintro ⟨hjoin, hf, hl, hblocked, hm⟩
    refine ⟨⟨fun tid next he hlt hne => ?_, hf, hl⟩, hm⟩
    have hrun := hjoin tid next he hlt hne
    have hassume := hblocked tid next he hlt hne
    rw [Bool.or_eq_false_iff] at hrun hassume
    refine ⟨?_, (hempty tid).1 (by simpa using hrun.2), hassume.2⟩
    show s.ecStack tid = none
    simpa using hrun.1
  · rintro ⟨⟨hjoin, hf, hl⟩, hm⟩
    refine ⟨fun tid next he hlt hne => ?_, hf, hl, fun tid next he hlt hne => ?_, hm⟩
    · obtain ⟨hnone, hw, -⟩ := hjoin tid next he hlt hne
      rw [show s.ecStack tid = none from hnone, (hempty tid).2 hw]
      rfl
    · obtain ⟨hnone, -, hassume⟩ := hjoin tid next he hlt hne
      rw [show s.ecStack tid = none from hnone, show s.assumeBlocked tid = false from hassume]
      rfl

/-- A refused thread waits, and the program has not moved. -/
theorem refused (hp : r p = .ready) {i : Instr σ} (hi : s.next code p = some i)
    {s' : State σ B} (hs : checkRefuse M s p i = some s') :
    (∃ r', Inv Holds code s' r' ws) ∧ s'.reference ws = s.reference ws := by
  have hb := h.holds p
  rw [hp] at hb
  have hmem : ∀ {κ : Type} [DecidableEq κ] {f : κ → List Nat} {k k' : κ} {q : Nat},
      q ∈ update f k (f k ++ [p]) k' ↔ q ∈ f k' ∨ q = p ∧ k = k' := by
    grind [Function.update_apply]
  have hjoin : ∀ {running : Nat → Bool}, (∀ t, running t = true → ¬ Joinable s ws t) →
      refuseJoin running s p i = some s' →
      (∃ r', Inv Holds code s' r' ws) ∧ s'.reference ws = s.reference ws := by
    intro running hrun hj
    unfold refuseJoin at hj
    split at hj
    · next tid next =>
      obtain ⟨hvalid, hj⟩ := Option.ite_none_right_eq_some.1 hj
      obtain rfl := Option.some.inj hj
      refine ⟨⟨_, h.refuse hp (x := .join tid) nofun nofun nofun (h.holds_stay hp rfl)
        (fun q t => hmem.trans (by simp)) (fun q lck => (or_iff_left (by simp)).symm)
        ?_ nofun nofun⟩, rfl⟩
      rintro t ⟨⟩
      exact ⟨hvalid.1, hvalid.2.1, ⟨next, hi⟩, hrun tid hvalid.2.2⟩
    · cases hj
  have hflush : ∀ {a : Await} {b : B}, Holds b (ws p) a → a.For i →
      s' = (s.markUnavailable p).setBuffers p b →
      (∃ r', Inv Holds code s' r' ws) ∧ s'.reference ws = s.reference ws := by
    rintro a b hhold hfor rfl
    have hholds := h.holds_update (p := p) (x := .flush a) hhold
    rw [Function.update_eq_self] at hholds
    exact ⟨⟨_, h.refuse hp (x := .flush a) nofun nofun nofun hholds
      (fun q t => (or_iff_left (by simp)).symm) (fun q lck => (or_iff_left (by simp)).symm) nofun
      (by rintro _ ⟨⟩; exact ⟨i, hi, hfor⟩) nofun⟩, rfl⟩
  have hload : refuseLoad M s p i = some s' →
      (∃ r', Inv Holds code s' r' ws) ∧ s'.reference ws = s.reference ws := by
    intro hl
    unfold refuseLoad at hl
    split at hl
    · next ml k =>
      obtain ⟨b, hb', hl⟩ := Option.map_eq_some_iff.1 hl
      exact hflush (L.refuseLoad_some hb ml.size_pos hb') ⟨ml, k, rfl, rfl⟩ hl.symm
    · cases hl
  unfold checkRefuse at hs
  rcases Option.or_eq_some_iff.1 hs with hj | ⟨-, hs⟩
  · refine hjoin (fun t hrun ⟨hnone, hw, _⟩ => ?_) hj
    rw [hnone, (L.allEmpty (h.holds t)).2 hw] at hrun
    cases hrun
  rcases Option.or_eq_some_iff.1 hs with hf | ⟨-, hs⟩
  · unfold refuseFence at hf
    obtain ⟨hcond, hf⟩ := Option.ite_none_right_eq_some.1 hf
    rw [Bool.and_eq_true] at hcond
    refine hflush (L.awaitAll hb fun hw => ?_) hcond.1 (Option.some.inj hf).symm
    rw [(L.allEmpty (h.holds p)).2 hw] at hcond
    cases hcond.2
  rcases Option.or_eq_some_iff.1 hs with hl | ⟨-, hs⟩
  · exact hload hl
  rcases Option.or_eq_some_iff.1 hs with hj | ⟨-, hm⟩
  · refine hjoin (fun t hrun ⟨hnone, _, hassume⟩ => ?_) hj
    rw [hnone, hassume] at hrun
    cases hrun
  unfold refuseLock at hm
  split at hm
  · next lck hlck =>
    obtain ⟨hown, hm⟩ := Option.ite_none_right_eq_some.1 hm
    obtain rfl := Option.some.inj hm
    refine ⟨⟨_, h.refuse hp (x := .mutex lck) nofun nofun nofun (h.holds_stay hp rfl)
      (fun q t => (or_iff_left (by simp)).symm) (fun q lck' => hmem.trans (by simp)) nofun nofun
      ?_⟩, rfl⟩
    rintro lck' ⟨⟩
    exact ⟨Option.isSome_iff_ne_none.1 hown, i, hi, hlck⟩
  · cases hm

/-- The mutex of a thread that was woken is locked before its instruction. -/
theorem awoken_spec (hp : r p = .ready) {i : Instr σ} (hgoes : (s.reference ws).Goes p i) :
    doPthreadCondAwake M s p = .ok (s.awoken p) ∧ Inv Holds code (s.awoken p) r ws ∧
      (s.awoken p).pendingMutexLock p = none ∧ ((s.awoken p).reference ws).Clear p i ∧
      Relation.ReflTransGen (Reference.Step Leaves code) (s.reference ws)
        ((s.awoken p).reference ws) := by
  have hlock := hgoes.lock
  have hclear := hgoes.toClear
  unfold doPthreadCondAwake State.awoken
  cases hpend : s.pendingMutexLock p with
  | none => exact ⟨rfl, h, hpend, hclear, .refl⟩
  | some lck =>
    have hw := h.pending p (by rw [hpend]; exact nofun)
    have hfree : s.owner lck = none := by
      apply hlock
      show isPthreadMutexLock (s.pendingMutexLock p) i = some lck
      rw [hpend]
      rfl
    refine ⟨?_, (h.lock lck).awake hp, Function.update_self .., ⟨hclear.join, hclear.fence,
      hclear.load⟩, .single (.awake hpend hw hfree)⟩
    dsimp only
    rw [h.lockMutex_eq L hw hfree]
    rfl

/-- A refused thread waits; otherwise its instruction is executed. -/
theorem runThread_spec (hp : r p = .ready) (alt : Nat) {i : Instr σ} (hi : s.next code p = some i) :
    (¬ (s.reference ws).Goes p i ∧ ∃ s' r', runThread M code s p alt = .ok s' ∧
        Inv Holds code s' r' ws ∧ s'.reference ws = s.reference ws) ∨
      (s.reference ws).Goes p i ∧
        Follows Holds code (fun c => ((s.awoken p).reference ws).visit p i = some c)
          (failure (s.awoken p) p alt i) (runThread M code s p alt) := by
  unfold runThread
  rw [hi]
  dsimp only
  cases hrefuse : checkRefuse M s p i with
  | some s' =>
    obtain ⟨⟨r', hinv⟩, hsame⟩ := h.refused L hp hi hrefuse
    refine .inl ⟨fun hgoes => ?_, s', r', rfl, hinv, hsame⟩
    rw [(h.checkRefuse_eq_none L).2 hgoes] at hrefuse
    cases hrefuse
  | none =>
    have hgoes := (h.checkRefuse_eq_none L).1 hrefuse
    obtain ⟨hawake, hinv, hpend, hclear, -⟩ := h.awoken_spec L hp hgoes
    rw [hawake]
    exact .inr ⟨hgoes, hinv.visit_spec L hp hpend hclear⟩

/-- Nobody is woken while the thread runs or a store is pending. -/
theorem wakeJoiners_eq (hnot : s.ecStack p ≠ none ∨ ws p ≠ []) : wakeJoiners M s p = s := by
  have := L.allEmpty (h.holds p)
  unfold wakeJoiners
  grind [Option.isNone_iff_eq_none]

/-- The store buffers of a thread give one store to memory. -/
theorem runAux_spec {i : Nat}
    {older newer : List Store} {e : Store} {b : B} {wake : Bool}
    (hws : ws p = older ++ e :: newer)
    (hrun : M.runAux (s.buffers p) i = .ok (e.toSymData, b, wake))
    (hb : Holds b (older ++ newer) (if wake then .no else (r p).await))
    (hwake : wake = true → (r p).await ≠ .no ∧ (r p).await.Met (older ++ newer)) :
    ∃ s' r', runAux M s p i = .ok s' ∧ Inv Holds code s' r' (update ws p (older ++ newer)) ∧
      s'.reference (update ws p (older ++ newer)) =
        { (s.reference ws).write e with pending := update ws p (older ++ newer) } := by
  have hne : ws p ≠ [] := by simp [hws]
  have hw : update ws p (older ++ newer) p = older ++ newer := Function.update_self ..
  unfold runAux
  rw [hrun]
  cases wake with
  | true =>
    obtain ⟨hno, -⟩ := hwake rfl
    cases hr : r p with
    | flush a =>
      have hsome : s.ecStack p ≠ none := by
        have := h.finished p
        grind
      have hinv := (h.flush_wake hne hr hb).memory (s.write e.toSymData).memory s.lastLock
      exact ⟨_, _, congrArg Except.ok (hinv.wakeJoiners_eq L (.inl hsome)), hinv, rfl⟩
    | _ => exact absurd (by rw [hr]; rfl) hno
  | false =>
    by_cases hdone : older ++ newer = [] ∧ s.ecStack p = none
    · -- First as if the thread were blocked: then nobody can join it yet.
      have hstay := (h.flush_stay hne hb
        (fun q hq => Function.update_of_ne hq true s.assumeBlocked)
        (.inr (.inr (Function.update_self ..)))).memory (s.write e.toSymData).memory s.lastLock
      have hall : ∀ q ∈ s.awaitingJoin p, r q = .join p := fun q hq =>
        (h.awaiting q p hq).resolve_right fun hd => hne hd.2
      have hjoined := hstay.joined hdone.2 (hw.trans hdone.1) hall
        (fun q hq => (Function.update_of_ne hq true s.assumeBlocked).symm)
      have hwoken : wakeJoiners M ((s.write e.toSymData).setBuffers p b) p =
          ((s.write e.toSymData).setBuffers p b).markAvailable (s.awaitingJoin p) := by
        apply if_pos
        rw [Bool.and_eq_true, Option.isNone_iff_eq_none]
        refine ⟨?_, hdone.2⟩
        show M.allEmpty (update s.buffers p b p) = true
        rw [Function.update_self]
        exact (L.allEmpty hb).2 hdone.1
      exact ⟨_, _, congrArg Except.ok hwoken, hjoined, rfl⟩
    · have hnot : s.ecStack p ≠ none ∨ older ++ newer ≠ [] := (not_and_or.1 hdone).symm
      have hinv := (h.flush_stay hne hb (fun q _ => rfl) (hnot.imp_right .inl)).memory
        (s.write e.toSymData).memory s.lastLock
      have hsame := hinv.wakeJoiners_eq L (p := p) (hnot.imp_right fun hcons => hw.symm ▸ hcons)
      exact ⟨_, _, congrArg Except.ok hsame, hinv, rfl⟩

/-- A scheduled thread, auxiliary or real. -/
theorem step_spec {c : Choice}
    (hc : schedulable M s c = true) :
    ∃ f, Follows Holds code
        (Relation.ReflTransGen (Reference.Step Leaves code) (s.reference ws)) f
        (step M code s c) ∧
      ∀ e, f = some e ↔ ∃ p alt i, c = .thread p alt ∧ s.next code p = some i ∧
        (s.reference ws).Goes p i ∧ failure (s.awoken p) p alt i = some e := by
  cases c with
  | thread p alt =>
    have hp := (h.available p).1 (Bool.and_eq_true_iff.1 hc).2
    obtain ⟨f, hf⟩ := Option.ne_none_iff_exists'.1 (h.ecStack_ne hp)
    have hi : s.next code p = some (code f) := congrArg (Option.map code) hf
    rcases h.runThread_spec L hp alt hi with ⟨hnot, s', r', hs, hinv, hsame⟩ | ⟨hgoes, hv⟩
    · refine ⟨none, ?_, by grind⟩
      show Follows _ _ _ _ (runThread M code s p alt)
      rw [hs]
      exact hinv.follows (by rw [hsame]) rfl
    · refine ⟨failure (s.awoken p) p alt (code f), ?_, by grind⟩
      obtain ⟨-, -, hpend, -, hsteps⟩ := h.awoken_spec L hp hgoes
      have hec : (s.awoken p).ecStack = s.ecStack := by
        unfold State.awoken
        split <;> rfl
      refine hv.imp fun c hc => hsteps.tail (.visit ⟨hpend, ?_⟩ hc)
      exact (congrArg (fun e => (e p).map code) hec).trans hi
  | aux p i =>
    obtain ⟨older, e, newer, b, wake, hws, hleaves, hrun, hb, hwake⟩ :=
      L.runAux (h.holds p) (Bool.and_eq_true_iff.1 hc).2
    obtain ⟨s', r', hs, hinv, hsame⟩ := h.runAux_spec L hws hrun hb hwake
    refine ⟨none, ?_, by grind⟩
    show Follows _ _ _ _ (runAux M s p i)
    rw [hs]
    exact hinv.follows (hsame ▸ .single (.flush hws hleaves)) rfl

end Inv

/-! ## Runs -/

variable {main : σ} {memory : SymAddr → UInt8}

/-- The invariant and the reference hold in every state of a run. -/
theorem Reachable.inv (L : M.Lawful Leaves Holds) (h : Reachable M code main memory s) :
    ∃ r ws, Inv Holds code s r ws ∧
      Reference.Reachable Leaves code main memory (s.reference ws) := by
  induction h with
  | initial => exact ⟨_, _, Inv.initial L code main memory, .refl⟩
  | step _ hc hs ih =>
    obtain ⟨r, ws, hinv, hreach⟩ := ih
    obtain ⟨f, hspec, -⟩ := hinv.step_spec L hc
    rw [hs] at hspec
    obtain ⟨⟨r', ws', hinv', hsteps⟩, -⟩ := hspec
    exact ⟨r', ws', hinv', hreach.trans hsteps⟩

end ViEqui.Buffered
