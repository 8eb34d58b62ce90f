import ViEqui.Buffered.Reference

/-!
# Why a thread is not scheduled

The invariant of the interpreter's runs.  Beside the state it has the pending
stores of each thread and the reason why the thread is not available.

* `Inv`: a thread is available exactly when it has no reason to wait, the lists
  of waiting threads have those that wait, and what a thread waits for has not
  come.
* One lemma for each way in which a thread stops to wait or starts to.
-/

namespace ViEqui.Buffered

open Function (update)
open Tso (SymAddr)

/-- Why a real thread is not available. -/
inductive Reason where
  | ready
  | finished
  | join (tid : Nat)
  | flush (a : Await)
  | mutex (lck : SymAddr)
  | cond (cnd : SymAddr)

def Reason.await : Reason → Await
  | .flush a => a
  | _ => .no

/-- The instructions that are refused for `a`. -/
def Await.For {σ : Type} : Await → Instr σ → Prop
  | .no, _ => False
  | .full, i => i.isFence = true
  | .load ml, i => ∃ ml' k, i = .load ml' k ∧ ml'.range = ml

/-- `pthread_join` of thread `t` can go on. -/
def Joinable {σ B : Type} (s : State σ B) (ws : Nat → List Store) (t : Nat) : Prop :=
  s.ecStack t = none ∧ ws t = [] ∧ s.assumeBlocked t = false

variable {σ B : Type}

/-- The invariant, with the reasons `r` and the pending stores `ws`. -/
structure Inv (Holds : B → List Store → Await → Prop) (code : σ → Instr σ) (s : State σ B)
    (r : Nat → Reason) (ws : Nat → List Store) : Prop where
  holds : ∀ q, Holds (s.buffers q) (ws q) (r q).await
  available : ∀ q, s.available q = true ↔ r q = .ready
  finished : ∀ q, s.ecStack q = none ↔ r q = .finished
  join : ∀ q t, r q = .join t → q ∈ s.awaitingJoin t ∧ t < s.size ∧ t ≠ q ∧
    (∃ next, s.next code q = some (.join t next)) ∧ ¬ Joinable s ws t
  awaiting : ∀ q t, q ∈ s.awaitingJoin t → r q = .join t ∨ s.ecStack t = none ∧ ws t = []
  flush : ∀ q a, r q = .flush a → ∃ i, s.next code q = some i ∧ a.For i
  mutex : ∀ q lck, r q = .mutex lck → q ∈ s.waiting lck ∧ s.owner lck ≠ none ∧
    ∃ i, s.next code q = some i ∧ isPthreadMutexLock (s.pendingMutexLock q) i = some lck
  waiting : ∀ q lck, q ∈ s.waiting lck → r q = .mutex lck
  cond : ∀ q cnd, r q = .cond cnd → ∃ l, s.condVars cnd = some l ∧ q ∈ l
  waiters : ∀ cnd l, s.condVars cnd = some l → l.Nodup ∧ ∀ q ∈ l, r q = .cond cnd
  pending : ∀ q, s.pendingMutexLock q ≠ none → ws q = []
  suspended : ∀ q cnd, r q = .cond cnd → s.pendingMutexLock q ≠ none
  fresh : ∀ q, s.size ≤ q → r q = .finished ∧ ws q = [] ∧ ∀ x, x ∉ s.awaitingJoin q

namespace Inv

variable {Holds : B → List Store → Await → Prop} {code : σ → Instr σ} {s : State σ B}
  {r : Nat → Reason} {ws : Nat → List Store} {p : Nat}

variable (h : Inv Holds code s r ws)

include h

theorem ecStack_ne (hp : r p = .ready) : s.ecStack p ≠ none := by
  have := h.finished p
  grind

theorem lt_size (hp : r p = .ready) : p < s.size := by
  have := h.fresh p
  grind

/-- The buffers of the other threads, and their reasons, are as before. -/
theorem holds_update {b : B} {w : List Store} {x : Reason}
    (hb : Holds b w x.await) (q : Nat) :
    Holds (update s.buffers p b q) (update ws p w q) (update r p x q).await := by
  have := h.holds q
  grind [Function.update_apply]

theorem holds_stay (hp : r p = .ready) {x : Reason}
    (hx : x.await = .no) (q : Nat) : Holds (s.buffers q) (ws q) (update r p x q).await := by
  have := h.holds q
  grind [Function.update_apply, Reason.await]

/-- Nothing depends on memory and on who locked a mutex last. -/
theorem memory (m : SymAddr → UInt8) (l : SymAddr → Option Nat) :
    Inv Holds code { s with memory := m, lastLock := l } r ws :=
  ⟨h.holds, h.available, h.finished, h.join, h.awaiting, h.flush, h.mutex, h.waiting, h.cond,
    h.waiters, h.pending, h.suspended, h.fresh⟩

theorem goOn (hp : r p = .ready) (f : σ) :
    Inv Holds code (s.goOn p f) r ws := by
  have hec := h.ecStack_ne hp
  refine ⟨h.holds, h.available, ?_, ?_, ?_, ?_, ?_, h.waiting, h.cond, h.waiters, h.pending,
    h.suspended, h.fresh⟩
  all_goals simp only [State.next, Joinable, State.goOn, Function.update_apply]
  · have := h.finished
    grind
  · have := h.join
    simp only [State.next, Joinable] at this
    grind
  · have := h.awaiting
    grind
  · have := h.flush
    simp only [State.next] at this
    grind
  · have := h.mutex
    simp only [State.next] at this
    grind

/-- The pending stores of thread `p` change, and it waits as before. -/
theorem setPending {b : B} {w : List Store} {ab : Nat → Bool}
    (hpend : s.pendingMutexLock p = none) (hlt : p < s.size)
    (hdone : s.ecStack p ≠ none ∨ ws p ≠ []) (hb : Holds b w (r p).await)
    (hab : ∀ q, q ≠ p → ab q = s.assumeBlocked q)
    (hblocked : s.ecStack p ≠ none ∨ w ≠ [] ∨ ab p = true) :
    Inv Holds code { s.setBuffers p b with assumeBlocked := ab } r (update ws p w) := by
  have hholds := h.holds_update (p := p) hb
  rw [Function.update_eq_self] at hholds
  refine ⟨hholds, h.available, h.finished, ?_, ?_, h.flush, h.mutex, h.waiting, h.cond,
    h.waiters, ?_, h.suspended, ?_⟩
  all_goals simp only [State.next, Joinable, State.setBuffers, Function.update_apply]
  · have := h.join
    simp only [State.next, Joinable] at this
    grind
  · have := h.awaiting
    grind
  · have := h.pending
    grind
  · have := h.fresh
    grind

theorem store (hp : r p = .ready) (hpend : s.pendingMutexLock p = none)
    {b : B} {e : Store} (hb : Holds b (ws p ++ [e]) .no) :
    Inv Holds code (s.setBuffers p b) r (update ws p (ws p ++ [e])) :=
  have hec := h.ecStack_ne hp
  h.setPending hpend (h.lt_size hp) (.inl hec) (by rwa [hp]) (fun _ _ => rfl) (.inl hec)

/-- A store of thread `p` reaches memory, and the thread waits as before. -/
theorem flush_stay {b : B} {w : List Store} {ab : Nat → Bool}
    (hw : ws p ≠ []) (hb : Holds b w (r p).await) (hab : ∀ q, q ≠ p → ab q = s.assumeBlocked q)
    (hblocked : s.ecStack p ≠ none ∨ w ≠ [] ∨ ab p = true) :
    Inv Holds code { s.setBuffers p b with assumeBlocked := ab } r (update ws p w) := by
  have hpend := h.pending p
  have hfresh := h.fresh p
  exact h.setPending (by grind) (by grind) (.inr hw) hb hab hblocked

/-- Thread `p` is refused for the reason `x`. -/
theorem refuse (hp : r p = .ready) {x : Reason} (hx : x ≠ .ready)
    (hfin : x ≠ .finished) (hcond : ∀ cnd, x ≠ .cond cnd) {b : Nat → B} {j : Nat → List Nat}
    {w : SymAddr → List Nat} (hb : ∀ q, Holds (b q) (ws q) (update r p x q).await)
    (haj : ∀ q t, q ∈ j t ↔ q ∈ s.awaitingJoin t ∨ q = p ∧ x = .join t)
    (hwt : ∀ q lck, q ∈ w lck ↔ q ∈ s.waiting lck ∨ q = p ∧ x = .mutex lck)
    (hjoin : ∀ t, x = .join t → t < s.size ∧ t ≠ p ∧
      (∃ next, s.next code p = some (.join t next)) ∧ ¬ Joinable s ws t)
    (hflush : ∀ a, x = .flush a → ∃ i, s.next code p = some i ∧ a.For i)
    (hmutex : ∀ lck, x = .mutex lck → s.owner lck ≠ none ∧
      ∃ i, s.next code p = some i ∧ isPthreadMutexLock (s.pendingMutexLock p) i = some lck) :
    Inv Holds code { s.markUnavailable p with buffers := b, awaitingJoin := j, waiting := w }
      (update r p x) ws := by
  have hec := h.ecStack_ne hp
  simp only [State.next, Joinable] at hjoin hflush hmutex
  refine ⟨hb, ?_, ?_, ?_, ?_, ?_, ?_, ?_, ?_, ?_, h.pending, ?_, ?_⟩
  all_goals simp only [State.next, Joinable, State.markUnavailable, Function.update_apply]
  · have := h.available
    grind
  · have := h.finished
    grind
  · have := h.join
    simp only [State.next, Joinable] at this
    grind
  · have := h.awaiting
    grind
  · have := h.flush
    simp only [State.next] at this
    grind
  · have := h.mutex
    simp only [State.next] at this
    grind
  · have := h.waiting
    grind
  · have := h.cond
    grind
  · have := h.waiters
    grind
  · have := h.suspended
    grind
  · have := h.fresh
    grind

/-- The threads `ps` are woken. -/
theorem wake {ps : List Nat} {o : SymAddr → Option Nat}
    {w : SymAddr → List Nat} {v : SymAddr → Option (List Nat)} {ab : Nat → Bool}
    (hps : ∀ q ∈ ps, r q ≠ .finished ∧ (r q).await = .no)
    (hjoin : ∀ q ∈ ps, ∀ t, r q = .join t → s.ecStack t = none ∧ ws t = [])
    (hab : ∀ q t, q ∉ ps → r q = .join t → ab t = s.assumeBlocked t)
    (hmutex : ∀ q lck, q ∉ ps → r q = .mutex lck → q ∈ w lck ∧ o lck ≠ none)
    (hwaiting : ∀ q lck, q ∈ w lck → q ∉ ps ∧ r q = .mutex lck)
    (hcond : ∀ q cnd, q ∉ ps → r q = .cond cnd → ∃ l, v cnd = some l ∧ q ∈ l)
    (hwaiters : ∀ cnd l, v cnd = some l → l.Nodup ∧ ∀ q ∈ l, q ∉ ps ∧ r q = .cond cnd) :
    Inv Holds code
      { s.markAvailable ps with owner := o, waiting := w, condVars := v, assumeBlocked := ab }
      (fun q => if q ∈ ps then .ready else r q) ws := by
  refine ⟨?_, ?_, ?_, ?_, ?_, ?_, ?_, ?_, ?_, ?_, h.pending, ?_, ?_⟩
  all_goals simp only [State.next, Joinable, State.markAvailable, Bool.or_eq_true,
    List.contains_iff_mem]
  · have := h.holds
    grind [Reason.await]
  · have := h.available
    grind
  · have := h.finished
    grind
  · have := h.join
    simp only [State.next, Joinable] at this
    grind
  · have := h.awaiting
    grind
  · have := h.flush
    simp only [State.next] at this
    grind
  · have := h.mutex
    simp only [State.next] at this
    grind
  · grind
  · grind
  · grind
  · have := h.suspended
    grind
  · have := h.fresh
    grind

/-- A mutex gets an owner. -/
theorem lock (lck : SymAddr) :
    Inv Holds code { s with
      lastLock := update s.lastLock lck (some p), owner := update s.owner lck (some p) } r ws := by
  refine ⟨h.holds, h.available, h.finished, h.join, h.awaiting, h.flush, ?_, h.waiting, h.cond,
    h.waiters, h.pending, h.suspended, h.fresh⟩
  · have := h.mutex
    simp only [State.next, Function.update_apply] at this ⊢
    grind

/-- A thread has its mutex back. -/
theorem awake (hp : r p = .ready) :
    Inv Holds code { s with pendingMutexLock := update s.pendingMutexLock p none } r ws := by
  refine ⟨h.holds, h.available, h.finished, h.join, h.awaiting, h.flush, ?_, h.waiting, h.cond,
    h.waiters, ?_, ?_, h.fresh⟩
  all_goals simp only [State.next, Function.update_apply]
  · have := h.mutex
    simp only [State.next] at this
    grind
  · have := h.pending
    grind
  · have := h.suspended
    grind

theorem unlock (lck : SymAddr) :
    Inv Holds code (unlockMutex s lck)
      (fun q => if q ∈ s.waiting lck then .ready else r q) ws := by
  have hwaiting := h.waiting
  refine h.wake (v := s.condVars) ?_ ?_ (fun _ _ _ _ => rfl) ?_ ?_
    (fun q cnd _ hq => h.cond q cnd hq) ?_
  · grind [Reason.await]
  · grind
  · have := h.mutex
    simp only [Function.update_apply]
    grind
  · simp only [Function.update_apply]
    grind
  · have := h.waiters
    grind

/-- Some waiters of a condition variable are woken, and `rest` stay. -/
theorem signal {cnd : SymAddr} {l : List Nat}
    (ps rest : List Nat)
    (hl : s.condVars cnd = some l) (hps : ∀ q ∈ ps, q ∈ l) (hrest : rest.Sublist l)
    (hsplit : ∀ q ∈ l, q ∈ rest ↔ q ∉ ps) :
    Inv Holds code
      { s.markAvailable ps with condVars := update s.condVars cnd (some rest) }
      (fun q => if q ∈ ps then .ready else r q) ws := by
  obtain ⟨hnodup, hall⟩ := h.waiters cnd l hl
  have hnodup' := hrest.nodup hnodup
  have hsub := hrest.subset
  refine h.wake (o := s.owner) (w := s.waiting) ?_ ?_ (fun _ _ _ _ => rfl) ?_ ?_ ?_ ?_
  · grind [Reason.await]
  · grind
  · have := h.mutex
    grind
  · have := h.waiting
    grind
  all_goals simp only [Function.update_apply]
  · have := h.cond
    grind
  · have := h.waiters
    grind

/-- A condition variable is initialised. -/
theorem condInit {cnd : SymAddr} (hnone : s.condVars cnd = none) :
    Inv Holds code { s with condVars := update s.condVars cnd (some []) } r ws := by
  refine ⟨h.holds, h.available, h.finished, h.join, h.awaiting, h.flush, h.mutex, h.waiting,
    ?_, ?_, h.pending, h.suspended, h.fresh⟩
  · have := h.cond
    simp only [Function.update_apply]
    grind
  · have := h.waiters
    simp only [Function.update_apply]
    grind

/-- Thread `p` waits for a condition variable, and has given up its mutex. -/
theorem sleep (hp : r p = .ready) (hw : ws p = []) (lck : SymAddr)
    {cnd : SymAddr} {l : List Nat} (hl : s.condVars cnd = some l) :
    Inv Holds code
      { s.markUnavailable p with
        condVars := update s.condVars cnd (some (l ++ [p]))
        pendingMutexLock := update s.pendingMutexLock p (some lck) }
      (update r p (.cond cnd)) ws := by
  obtain ⟨hnodup, hall⟩ := h.waiters cnd l hl
  have hnodup' : (l ++ [p]).Nodup := by grind
  have hec := h.ecStack_ne hp
  refine ⟨h.holds_stay hp rfl, ?_, ?_, ?_, ?_, ?_, ?_, ?_, ?_, ?_, ?_, ?_, ?_⟩
  all_goals simp only [State.next, Joinable, State.markUnavailable, Function.update_apply]
  · have := h.available
    grind
  · have := h.finished
    grind
  · have := h.join
    simp only [State.next, Joinable] at this
    grind
  · have := h.awaiting
    grind
  · have := h.flush
    simp only [State.next] at this
    grind
  · have := h.mutex
    simp only [State.next] at this
    grind
  · have := h.waiting
    grind
  · have := h.cond
    grind
  · have := h.waiters
    grind
  · have := h.pending
    grind
  · have := h.suspended
    grind
  · have := h.fresh
    grind

/-- Thread `p`, which is in no list, becomes ready or ends, and it cannot be joined yet. -/
theorem change {y : Reason} {n : Nat} {f : Option σ} {b : B}
    {w : List Store} {v : Bool} {ab : Nat → Bool}
    (hx : (∀ t, r p ≠ .join t) ∧ (∀ lck, r p ≠ .mutex lck) ∧ ∀ cnd, r p ≠ .cond cnd)
    (hy : y = .ready ∨ y = .finished) (hec : f = none ↔ y = .finished)
    (hav : v = true ↔ y = .ready) (hb : Holds b w .no)
    (hab : ∀ q, q ≠ p → ab q = s.assumeBlocked q) (hblocked : f ≠ none ∨ w ≠ [] ∨ ab p = true)
    (hnone : s.ecStack p = none → ws p = [] → s.awaitingJoin p = [])
    (hpend : s.pendingMutexLock p ≠ none → w = []) (hn : s.size ≤ n) (hpn : p < n) :
    Inv Holds code { s with
      size := n
      ecStack := update s.ecStack p f
      available := update s.available p v
      buffers := update s.buffers p b
      assumeBlocked := ab } (update r p y) (update ws p w) := by
  have hy' : y.await = .no := by
    rcases hy with rfl | rfl
    · rfl
    · rfl
  refine ⟨h.holds_update (hy' ▸ hb), ?_, ?_, ?_, ?_, ?_, ?_, ?_, ?_, ?_, ?_, ?_, ?_⟩
  all_goals simp only [State.next, Joinable, Function.update_apply]
  · have := h.available
    grind
  · have := h.finished
    grind
  · have := h.join
    simp only [State.next, Joinable] at this
    grind
  · have := h.awaiting
    grind
  · have := h.flush
    simp only [State.next] at this
    grind
  · have := h.mutex
    simp only [State.next] at this
    grind
  · have := h.waiting
    grind
  · have := h.cond
    grind
  · have := h.waiters
    grind
  · have := h.pending
    grind
  · have := h.suspended
    grind
  · have := h.fresh
    grind

/-- The stack of thread `p` is empty, and it cannot be joined yet. -/
theorem finish (hp : r p = .ready) {ab : Nat → Bool}
    (hab : ∀ q, q ≠ p → ab q = s.assumeBlocked q) (hblocked : ws p ≠ [] ∨ ab p = true) :
    Inv Holds code { Buffered.finish s p with assumeBlocked := ab } (update r p .finished) ws := by
  have hchange := h.change (p := p) (y := .finished) (n := s.size) (f := none) (w := ws p)
    (v := false) (by rw [hp]; exact ⟨nofun, nofun, nofun⟩) (.inr rfl) (iff_of_true rfl rfl)
    (iff_of_false nofun nofun) (b := s.buffers p) (by have := h.holds p; rwa [hp] at this) hab
    (.inr hblocked) (fun hn => absurd hn (h.ecStack_ne hp)) (h.pending p) (Nat.le_refl _)
    (h.lt_size hp)
  rw [Function.update_eq_self, Function.update_eq_self] at hchange
  exact hchange

/-- Thread `p` can be joined, and the threads that wait for it are woken. -/
theorem joined (hec : s.ecStack p = none) (hw : ws p = [])
    (hall : ∀ q ∈ s.awaitingJoin p, r q = .join p) {ab : Nat → Bool}
    (hab : ∀ q, q ≠ p → ab q = s.assumeBlocked q) :
    Inv Holds code { s.markAvailable (s.awaitingJoin p) with assumeBlocked := ab }
      (fun q => if q ∈ s.awaitingJoin p then .ready else r q) ws := by
  refine h.wake (o := s.owner) (w := s.waiting) (v := s.condVars) ?_ ?_ ?_ ?_ ?_ ?_ ?_
  · grind [Reason.await]
  · grind
  · have := h.join
    grind
  · have := h.mutex
    grind
  · have := h.waiting
    grind
  · have := h.cond
    grind
  · have := h.waiters
    grind

/-- The store that thread `p` waited for has reached memory. -/
theorem flush_wake {a : Await} {b : B} {w : List Store}
    (hw : ws p ≠ []) (hp : r p = .flush a) (hb : Holds b w .no) :
    Inv Holds code ((s.setBuffers p b).markAvailable [p]) (update r p .ready)
      (update ws p w) := by
  have hec : s.ecStack p ≠ none := by
    have := h.finished p
    grind
  have hlt : p < s.size := by
    have := h.fresh p
    grind
  have hchange := h.change (p := p) (y := .ready) (n := s.size) (f := s.ecStack p)
    (by rw [hp]; exact ⟨nofun, nofun, nofun⟩) (.inl rfl) (iff_of_false hec nofun)
    (v := true) (iff_of_true rfl rfl) hb (fun q _ => rfl) (.inl hec) (fun hn => absurd hn hec)
    (fun hsome => absurd (h.pending p hsome) hw) (Nat.le_refl _) hlt
  rw [Function.update_eq_self] at hchange
  have hav : update s.available p true = (s.markAvailable [p]).available := by
    funext q
    simp only [State.markAvailable, Function.update_apply]
    grind
  rw [hav] at hchange
  exact hchange

/-- A new thread. -/
theorem create (child : σ) :
    Inv Holds code { s with
      size := s.size + 1
      ecStack := update s.ecStack s.size (some child)
      available := update s.available s.size true } (update r s.size .ready) ws := by
  obtain ⟨hfin, hw, haj⟩ := h.fresh s.size (Nat.le_refl _)
  have hchange := h.change (p := s.size) (y := .ready) (n := s.size + 1) (f := some child)
    (w := ws s.size) (by rw [hfin]; exact ⟨nofun, nofun, nofun⟩) (.inl rfl)
    (iff_of_false nofun nofun) (v := true) (iff_of_true rfl rfl) (b := s.buffers s.size)
    (by have := h.holds s.size; rwa [hfin] at this) (fun q _ => rfl) (.inl nofun)
    (fun _ _ => List.eq_nil_iff_forall_not_mem.2 haj) (fun _ => hw) (Nat.le_succ _)
    (Nat.lt_succ_self _)
  rw [Function.update_eq_self, Function.update_eq_self] at hchange
  exact hchange

end Inv

end ViEqui.Buffered
