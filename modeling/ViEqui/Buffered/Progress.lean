import ViEqui.Buffered.Runs

/-!
# What a run can do

The other direction of the refinement, and what follows when nothing can be
scheduled.

* `Inv.available_iff`: no wake-up is lost.
* `Reachable.complete`: the runs come to every state of the program, as long as it
  does not use condition variables and the store buffers let each store out that
  may leave (`Flushes`).
* `Inv.blocked`: when nothing can be scheduled, all stores are in memory.
-/

namespace ViEqui.Buffered

open Function (update)
open Tso (SymAddr)

variable {σ B : Type} {M : Buffering B} {Leaves : List Store → Store → Prop}
  {Holds : B → List Store → Await → Prop} {code : σ → Instr σ}
  {s : State σ B} {r : Nat → Reason} {ws : Nat → List Store} {p alt : Nat}
  {main : σ} {memory : SymAddr → UInt8}

/-! ## Threads that can go on -/

/-- A thread that has what its instruction needs is not waiting for it. -/
theorem Inv.ready_or_cond (L : M.Lawful Leaves Holds) (h : Inv Holds code s r ws) {i : Instr σ}
    (hi : s.next code p = some i) (hgoes : (s.reference ws).Goes p i) :
    r p = .ready ∨ ∃ cnd, r p = .cond cnd := by
  have hb := h.holds p
  cases hr : r p with
  | ready => exact .inl rfl
  | cond cnd => exact .inr ⟨cnd, rfl⟩
  | finished =>
    rw [State.next, (h.finished p).2 hr] at hi
    cases hi
  | join t =>
    obtain ⟨-, hlt, hne, ⟨next, hnext⟩, hnot⟩ := h.join p t hr
    exact absurd (hgoes.join t next (Option.some.inj (hi.symm.trans hnext)) hlt hne) hnot
  | flush a =>
    obtain ⟨i', hi', hfor⟩ := h.flush p a hr
    obtain rfl := Option.some.inj (hi.symm.trans hi')
    rw [hr] at hb
    cases a with
    | no => exact absurd hfor id
    | full => exact absurd (hgoes.fence hfor) (L.unmet hb Await.noConfusion)
    | load ml =>
      obtain ⟨ml', k, he, rfl⟩ := hfor
      exact absurd (hgoes.load ml' k he) (L.unmet hb Await.noConfusion)
  | mutex lck =>
    obtain ⟨-, hown, i', hi', hlock⟩ := h.mutex p lck hr
    obtain rfl := Option.some.inj (hi.symm.trans hi')
    exact absurd (hgoes.lock lck hlock) hown

/-- A thread is scheduled, and not refused, exactly when it has what its instruction
needs and is not suspended by `pthread_cond_wait`. -/
theorem Inv.available_iff (L : M.Lawful Leaves Holds) (h : Inv Holds code s r ws) {i : Instr σ}
    (hi : s.next code p = some i) :
    s.available p = true ∧ checkRefuse M s p i = none ↔
      (s.reference ws).Goes p i ∧ ∀ cnd l, s.condVars cnd = some l → p ∉ l := by
  rw [h.available p, h.checkRefuse_eq_none L]
  have hready := h.ready_or_cond L hi
  have hcond := h.cond p
  have hwaiters := h.waiters
  grind

theorem Inv.lt_of_pending (h : Inv Holds code s r ws) (hw : ws p ≠ []) : p < s.size := by
  by_contra hle
  exact hw (h.fresh p (Nat.not_lt.1 hle)).2.1

/-- When nothing can be scheduled, all stores are in memory and each thread waits for
something that has not come. -/
theorem Inv.blocked (L : M.Lawful Leaves Holds) (h : Inv Holds code s r ws)
    (hstuck : ∀ c, schedulable M s c = false)
    (hdrain : ∀ q, ws q ≠ [] → ∃ i, M.schedulable (s.buffers q) i = true) :
    (∀ q, M.allEmpty (s.buffers q) = true) ∧
      ∀ q i, s.next code q = some i → ¬ (s.reference ws).Goes q i ∨
        ∃ cnd l, s.condVars cnd = some l ∧ q ∈ l := by
  constructor
  · intro q
    rw [L.allEmpty (h.holds q)]
    by_contra hne
    obtain ⟨i, hi⟩ := hdrain q hne
    have hno := hstuck (.aux q i)
    rw [schedulable, hi, decide_eq_true (h.lt_of_pending hne)] at hno
    cases hno
  · intro q i hi
    have hready := h.ready_or_cond L hi
    have hcond := h.cond q
    have hno : r q ≠ .ready := by
      intro hr
      have hno := hstuck (.thread q 0)
      rw [schedulable, (h.available q).2 hr, decide_eq_true (h.lt_size hr)] at hno
      cases hno
    grind

/-! ## Nothing is lost -/

/-- An instruction of the program is one that the interpreter executes. -/
theorem Inv.step_thread (L : M.Lawful Leaves Holds) (h : Inv Holds code s r ws) {i : Instr σ}
    {c : Reference σ} (hat : (s.reference ws).At code p i)
    (hv : (s.reference ws).visit p i = some c) (hf : failure s p alt i = none) :
    schedulable M s (.thread p alt) = true ∧ ∃ s' r' ws', step M code s (.thread p alt) = .ok s' ∧
      Inv Holds code s' r' ws' ∧ s'.reference ws' = c := by
  obtain ⟨hpend, hi⟩ := hat
  have hgoes := Reference.goes_of_visit ⟨hpend, hi⟩ hv
  have hr : r p = .ready := by
    refine (h.ready_or_cond L hi hgoes).resolve_right ?_
    rintro ⟨cnd, hr⟩
    exact h.suspended p cnd hr hpend
  have hawoken : s.awoken p = s := by
    unfold State.awoken
    rw [show s.pendingMutexLock p = none from hpend]
  refine ⟨?_, ?_⟩
  · rw [schedulable, (h.available p).2 hr, decide_eq_true (h.lt_size hr)]
    rfl
  · rcases h.runThread_spec L hr alt hi with ⟨hnot, -⟩ | ⟨-, hfollows⟩
    · exact absurd hgoes hnot
    · rw [hawoken, hf] at hfollows
      obtain ⟨s', r', ws', hs, hinv, hc⟩ := hfollows.exists_ok
      exact ⟨s', r', ws', hs, hinv, (Option.some.inj (hv.symm.trans hc)).symm⟩

/-- The instructions on condition variables. -/
def Instr.usesCond : Instr σ → Bool
  | .condInit .. | .condSignal .. | .condBroadcast .. | .condWait .. => true
  | _ => false

/-- An instruction that can be executed does not fail. -/
theorem failure_of_visit (alt : Nat) {i : Instr σ} {c : Reference σ}
    (hat : (s.reference ws).At code p i) (hv : (s.reference ws).visit p i = some c)
    (hcond : i.usesCond = false) :
    failure s p alt i = none := by
  have hexec := (Option.ite_none_left_eq_some.1 hv).2
  have hsome := hat.2
  cases i <;>
    grind [failure, Reference.exec, State.reference, Instr.usesCond, Option.isNone_iff_eq_none]

theorem Reference.visit_pendingMutexLock {c c' : Reference σ} {i : Instr σ}
    (hv : c.visit p i = some c') (hcond : i.usesCond = false) :
    c'.pendingMutexLock = c.pendingMutexLock := by
  have hexec : c.exec p i = some c' := (Option.ite_none_left_eq_some.1 hv).2
  cases i with
  | store _ sc _ => cases sc <;> grind [Reference.exec, Reference.goOn, Reference.write]
  | assume b _ => cases b <;> grind [Reference.exec, Reference.goOn, Reference.write]
  | _ => grind [Reference.exec, Reference.goOn, Reference.write, Instr.usesCond]

/-- Without `pthread_cond_wait` no thread gives a mutex up. -/
theorem Reference.Reachable.pendingMutexLock {c : Reference σ}
    (hcode : ∀ f, (code f).usesCond = false) (h : Reference.Reachable Leaves code main memory c) :
    c.pendingMutexLock = fun _ => none := by
  induction h with
  | refl => rfl
  | tail _ hstep ih =>
    cases hstep with
    | flush => exact ih
    | awake hq =>
      rw [ih] at hq
      cases hq
    | visit hat hv =>
      obtain ⟨f, -, hf⟩ := Option.map_eq_some_iff.1 hat.2
      exact (Reference.visit_pendingMutexLock hv (hf ▸ hcode f)).trans ih

/-- Each of the pending stores that may leave the buffers can be scheduled. -/
def Flushes (M : Buffering B) (Leaves : List Store → Store → Prop)
    (Holds : B → List Store → Await → Prop) (b : B) (ws : List Store) (a : Await) : Prop :=
  ∀ older e newer, ws = older ++ e :: newer → Leaves older e →
    ∃ i b' wake, M.schedulable b i = true ∧ M.runAux b i = .ok (e.toSymData, b', wake) ∧
      Holds b' (older ++ newer) (if wake then .no else a) ∧
      (wake = true → a ≠ .no ∧ a.Met (older ++ newer))

/-- The runs come to every state of a program without condition variables. -/
theorem Reachable.complete (L : M.Lawful Leaves Holds) (hcode : ∀ f, (code f).usesCond = false)
    (hflush : ∀ s, Reachable M code main memory s → ∀ q ws a, Holds (s.buffers q) ws a →
      Flushes M Leaves Holds (s.buffers q) ws a)
    {c : Reference σ} (h : Reference.Reachable Leaves code main memory c) :
    ∃ s r ws, Reachable M code main memory s ∧ Inv Holds code s r ws ∧ s.reference ws = c := by
  induction h with
  | refl => exact ⟨_, _, _, .initial, Inv.initial L code main memory, rfl⟩
  | tail hreach hstep ih =>
    obtain ⟨s, r, ws, hs, hinv, rfl⟩ := ih
    cases hstep with
    | visit hat hv =>
      obtain ⟨f, -, hf⟩ := Option.map_eq_some_iff.1 hat.2
      have hfail := failure_of_visit 0 hat hv (hf ▸ hcode f)
      obtain ⟨hc, s', r', ws', hs', hinv', hsame⟩ := hinv.step_thread L hat hv hfail
      exact ⟨s', r', ws', hs.step hc hs', hinv', hsame⟩
    | flush hws hleaves =>
      obtain ⟨i, b, wake, hsched, hrun, hb, hwake⟩ :=
        hflush s hs _ _ _ (hinv.holds _) _ _ _ hws hleaves
      obtain ⟨s', r', hs', hinv', hsame⟩ := hinv.runAux_spec L hws hrun hb hwake
      have hlt := hinv.lt_of_pending fun hnil =>
        List.append_ne_nil_of_right_ne_nil _ (List.cons_ne_nil _ _) (hws.symm.trans hnil)
      refine ⟨s', r', _, hs.step (c := .aux _ i) ?_ hs', hinv', hsame⟩
      rw [schedulable, hsched, decide_eq_true hlt]
      rfl
    | awake hq =>
      have hnone := Reference.Reachable.pendingMutexLock hcode hreach
      rw [hnone] at hq
      cases hq

end ViEqui.Buffered
