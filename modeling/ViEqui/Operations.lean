import ViEqui.Execution
import ViEqui.Interpreter

/-!
# Runs of the trace builder

`Operation` lists the functions of `ViewEqTraceBuilder` that the interpreter
and the driver call, and `Builder.run` applies any sequence of them.

`reset` clears the per-execution data field by field.  The order of the
threads (`spawn_summary`, `join_summary`) and their names (`CPS`) are written
by `spawn` and `join` alone and never cleared, and `Enabled` is not cleared
either.  `startsClean_iff` says when an execution starts with the data of a
new builder.
-/

namespace ViEqui

open AssocMap

/-- A call of the trace builder. -/
inductive Operation where
  | schedule
  | refuseSchedule
  | markAvailable (proc : Nat)
  | markUnavailable (proc : Nat)
  | cancelReplay
  | spawn
  | join (tgt : Nat)
  | load (a : SymAddrSize)
  | atomicStore (a : SymAddrSize) (written : List UInt8)
  | setRmwOperation (op : RMWOperation) (val : Value)
  | setCmpxchgOperation (expected xchg : Value)
  | atomicRmw (a : SymAddrSize) (written : List UInt8)
  | compareExchange (a : SymAddrSize) (written : List UInt8) (success : Bool)
  | reset

/-- The operation orders threads: it spawns or joins one. -/
def Operation.ordersThreads : Operation → Bool
  | .spawn | .join _ => true
  | _ => false

namespace Builder

/-- A new builder. -/
def construct (checkOptimality : Bool) : Builder := { checkOptimality }

/-- `cancel_replay`. -/
def cancelReplay (b : Builder) : Builder := { b with replayPoint := none }

/-- The effect of a call. -/
def apply (env : Env) (b : Builder) : Operation → Option Builder
  | .schedule => (b.schedule env).map (·.1)
  | .refuseSchedule => some b.refuseSchedule
  | .markAvailable proc => some (b.markAvailable proc)
  | .markUnavailable proc => some (b.markUnavailable proc)
  | .cancelReplay => some b.cancelReplay
  | .spawn => some b.spawn
  | .join tgt => some (b.join tgt)
  | .load a => some (b.load a)
  | .atomicStore a written => some (b.atomicStore a written)
  | .setRmwOperation op val => some (b.setRmwOperation op val)
  | .setCmpxchgOperation expected xchg =>
    some (b.setCmpxchgOperation expected xchg)
  | .atomicRmw a written => b.atomicRmw env a written
  | .compareExchange a written success => b.compareExchange env a written success
  | .reset => (b.reset env).map (·.1)

/-- A sequence of calls. -/
def run (env : Env) (b : Builder) (ops : List Operation) : Option Builder :=
  ops.foldlM (apply env) b

/-- The per-execution data is that of a new builder. -/
structure StartsClean (b : Builder) : Prop where
  threads : b.threads = [{}]
  mem : b.mem = []
  lastWrite : b.lastWrite = []
  enabled : b.enabled = []
  spawnSummary : b.spawnSummary = []
  joinSummary : b.joinSummary = []
  cps : b.cps = []

/-! ## The order and the names of the threads -/

/-- What the builder knows of the spawns and joins. -/
def causality (b : Builder) :
    Map Nat (Map Nat Nat) × Map Nat (Map Nat Nat) × Map CPid Nat :=
  (b.spawnSummary, b.joinSummary, b.cps)

theorem causality_of_execution {b b' : Builder}
    (h : b'.execution = b.execution) : b'.causality = b.causality := by
  have hcontainer : b'.toContainer = b.toContainer :=
    congrArg Execution.container h
  have hcps : b'.cps = b.cps := congrArg Execution.cps h
  unfold causality
  rw [hcontainer, hcps]

@[simp] theorem causality_modifyThread (b : Builder) (t : Nat)
    (f : Thread → Thread) : (b.modifyThread t f).causality = b.causality := rfl

theorem causality_performAccess (b : Builder) (e : Event) :
    (b.performAccess e).causality = b.causality := by
  unfold performAccess
  split
  · rfl
  · split <;> rfl

theorem causality_executeNextLead (b : Builder) :
    b.executeNextLead.causality = b.causality := by
  unfold executeNextLead
  simp only [causality_modifyThread]
  exact causality_performAccess _ _

theorem causality_replaySchedule (b : Builder) :
    b.replaySchedule.causality = b.causality := by
  unfold replaySchedule
  cases b.prefixStateAt b.prefixIdx with
  | none => rfl
  | some state =>
    have haccess : ∀ b1 : Builder, (if
        (b1.stateAt state).leadHeadExecutionPrefix = some b1.prefixIdx then
          { b1 with alphaHead := b1.prefixIdx } else b1).causality =
        b1.causality := by
      intro b1
      split <;> rfl
    show (replayMemoryAccess b _ state).causality = b.causality
    unfold replayMemoryAccess
    rw [haccess, causality_performAccess]
    rfl

theorem causality_schedule {env : Env} {b b' : Builder} {proc : Option Nat}
    (h : b.schedule env = some (b', proc)) : b'.causality = b.causality := by
  unfold schedule at h
  split at h
  · cases h
    exact causality_replaySchedule b
  · split at h
    · cases h
      rw [causality_executeNextLead]
      rfl
    · split at h
      · cases h
        rfl
      · split at h
        · cases h
          rfl
        · simp only [Option.bind_eq_bind, Option.bind_eq_some_iff] at h
          obtain ⟨b1, hnew, h⟩ := h
          have hkeep : b1.causality = b.causality :=
            causality_of_execution (b := b.makeNewState)
              (execution_computeNewLeads hnew)
          split at h
          · cases h
            rw [causality_executeNextLead, hkeep]
          · cases h
            exact hkeep

theorem causality_load (b : Builder) (a : SymAddrSize) :
    (b.load a).causality = b.causality := by
  unfold load
  simp only
  split <;> rfl

theorem causality_atomicStore (b : Builder) (a : SymAddrSize)
    (written : List UInt8) : (b.atomicStore a written).causality = b.causality := by
  unfold atomicStore
  simp only
  split <;> rfl

theorem causality_enableRmw (b : Builder) (a : SymAddrSize) :
    (b.enableRmw a).causality = b.causality :=
  causality_load b a

theorem causality_completeRmw {env : Env} {b b' : Builder} {a : SymAddrSize}
    {written : List UInt8} (h : b.completeRmw env a written = some b') :
    b'.causality = b.causality := by
  show (b'.execution.container.spawnSummary,
    b'.execution.container.joinSummary, b'.execution.cps) = b.causality
  rw [execution_completeRmw h]
  rfl

theorem causality_atomicRmw {env : Env} {b b' : Builder} {a : SymAddrSize}
    {written : List UInt8} (h : b.atomicRmw env a written = some b') :
    b'.causality = b.causality := by
  unfold atomicRmw at h
  split at h
  · split at h
    · exact causality_completeRmw h
    · cases h
      exact causality_enableRmw b a
  · cases h
    rfl

theorem causality_compareExchange {env : Env} {b b' : Builder}
    {a : SymAddrSize} {written : List UInt8} {success : Bool}
    (h : b.compareExchange env a written success = some b') :
    b'.causality = b.causality := by
  unfold compareExchange at h
  split at h
  · split at h
    · simp only [Option.bind_eq_bind, Option.bind_eq_some_iff] at h
      obtain ⟨b1, hcomplete, h⟩ := h
      rw [← causality_completeRmw hcomplete]
      split at h <;> cases h <;> rfl
    · cases h
      exact causality_enableRmw b a
  · cases h
    rfl

theorem causality_reset {env : Env} {b b' : Builder} {more : Bool}
    (h : b.reset env = some (b', more)) : b'.causality = b.causality := by
  obtain ⟨b1, hexec, ⟨_, rfl⟩ | ⟨state, _, rfl⟩⟩ := reset_cases h
  · show b1.causality = b.causality
    exact causality_of_execution hexec
  · show b1.causality = b.causality
    exact causality_of_execution hexec

/-- Only `spawn` and `join` write to the order and the names of threads. -/
theorem causality_apply {env : Env} {b b' : Builder} {op : Operation}
    (h : b.apply env op = some b') (hop : ¬ op.ordersThreads) :
    b'.causality = b.causality := by
  cases op with
  | schedule =>
    simp only [apply, Option.map_eq_some_iff] at h
    obtain ⟨⟨b1, proc⟩, hschedule, rfl⟩ := h
    exact causality_schedule hschedule
  | reset =>
    simp only [apply, Option.map_eq_some_iff] at h
    obtain ⟨⟨b1, more⟩, hreset, rfl⟩ := h
    exact causality_reset hreset
  | spawn => exact absurd rfl hop
  | join tgt => exact absurd rfl hop
  | atomicRmw a written => exact causality_atomicRmw h
  | compareExchange a written success => exact causality_compareExchange h
  | load a =>
    cases h
    exact causality_load b a
  | atomicStore a written =>
    cases h
    exact causality_atomicStore b a written
  | refuseSchedule => cases h; rfl
  | markAvailable proc => cases h; rfl
  | markUnavailable proc => cases h; rfl
  | cancelReplay => cases h; rfl
  | setRmwOperation op val => cases h; rfl
  | setCmpxchgOperation expected xchg => cases h; rfl

/-! ## What a spawn and a join leave behind -/

/-- No spawn and no join has left a trace. -/
def NoCausality (b : Builder) : Prop := b.causality = ([], [], [])

theorem not_noCausality_spawn (b : Builder) : ¬ b.spawn.NoCausality := by
  intro h
  have hcps : b.spawn.cps = [] := congrArg (·.2.2) h
  exact insert_ne_nil _ _ _ hcps

theorem joinSummary_updateJoinSummary_ne_nil (c : Container) (e : Event) :
    (c.updateJoinSummary e).joinSummary ≠ [] := by
  unfold Container.updateJoinSummary
  simp only
  split
  · next hcontains =>
    intro hnil
    rw [hnil] at hcontains
    cases hcontains
  · exact insert_ne_nil _ _ _

theorem not_noCausality_join (b : Builder) (tgt : Nat) :
    ¬ (b.join tgt).NoCausality := by
  intro h
  have hjoin : (b.join tgt).joinSummary = [] := congrArg (·.2.1) h
  exact joinSummary_updateJoinSummary_ne_nil _ _ hjoin

theorem noCausality_apply {env : Env} {b b' : Builder} {op : Operation}
    (h : b.apply env op = some b') :
    b'.NoCausality ↔ b.NoCausality ∧ ¬ op.ordersThreads := by
  by_cases hop : op.ordersThreads
  · have hnot : ¬ b'.NoCausality := by
      cases op with
      | spawn =>
        cases h
        exact not_noCausality_spawn b
      | join tgt =>
        cases h
        exact not_noCausality_join b tgt
      | _ => cases hop
    simp [hop, hnot]
  · unfold NoCausality
    rw [causality_apply h hop]
    simp [hop]

theorem run_cons {env : Env} {b b' : Builder} {op : Operation}
    {ops : List Operation} (h : b.run env (op :: ops) = some b') :
    ∃ b1, b.apply env op = some b1 ∧ b1.run env ops = some b' := by
  rw [run, List.foldlM_cons, Option.bind_eq_bind, Option.bind_eq_some_iff] at h
  exact h

theorem noCausality_run {env : Env} {b b' : Builder} {ops : List Operation}
    (h : b.run env ops = some b') :
    b'.NoCausality ↔ b.NoCausality ∧ ∀ op ∈ ops, ¬ op.ordersThreads := by
  induction ops generalizing b with
  | nil =>
    cases h
    simp
  | cons op ops ih =>
    obtain ⟨b1, happly, hrun⟩ := run_cons h
    rw [ih hrun, noCausality_apply happly, and_assoc, List.forall_mem_cons]

/-! ## Programs -/

/-- Some sequence of calls leads from `b` to `b'`. -/
def Reaches (env : Env) (b b' : Builder) : Prop :=
  ∃ ops, b.run env ops = some b'

theorem Reaches.refl (env : Env) (b : Builder) : Reaches env b b := ⟨[], rfl⟩

theorem Reaches.trans {env : Env} {b b1 b2 : Builder} (h : Reaches env b b1)
    (h' : Reaches env b1 b2) : Reaches env b b2 := by
  obtain ⟨ops, hrun⟩ := h
  obtain ⟨ops', hrun'⟩ := h'
  refine ⟨ops ++ ops', ?_⟩
  rw [run, List.foldlM_append, ← run, hrun]
  exact hrun'

theorem Reaches.of_apply {env : Env} {b b' : Builder} (op : Operation)
    (h : b.apply env op = some b') : Reaches env b b' := by
  refine ⟨[op], ?_⟩
  rw [run, List.foldlM_cons, h]
  rfl

theorem Reaches.markAvailable (env : Env) (ts : List Nat) (b : Builder) :
    Reaches env b (ts.foldl Builder.markAvailable b) := by
  induction ts generalizing b with
  | nil => exact .refl env b
  | cons t ts ih => exact .trans (.of_apply (.markAvailable t) rfl) (ih _)

end Builder

theorem Interp.reaches_execute {env : Env} {b b' : Builder} {it it' : Interp}
    {t : Nat} {instr : Instr}
    (h : it.execute env b t instr = some (b', it')) : Builder.Reaches env b b' := by
  cases instr with
  | skip =>
    cases h
    exact .refl env b
  | load a =>
    cases h
    split
    · exact .refl env b
    · exact .of_apply (.load a) rfl
  | store a v =>
    cases h
    split
    · exact .refl env b
    · exact .of_apply (.atomicStore a _) rfl
  | rmw op a v =>
    simp only [execute, Option.bind_eq_bind, Option.bind_eq_some_iff] at h
    obtain ⟨b1, hrmw, h⟩ := h
    cases h
    exact .of_apply (.atomicRmw a _) hrmw
  | cmpxchg a expected new =>
    simp only [execute, Option.bind_eq_bind, Option.bind_eq_some_iff] at h
    obtain ⟨b1, hcas, h⟩ := h
    cases h
    exact .of_apply (.compareExchange a _ _) hcas
  | spawn code =>
    cases h
    exact .of_apply .spawn rfl
  | join tid =>
    cases h
    exact .of_apply (.join tid) rfl
  | ret =>
    cases h
    exact .trans (.markAvailable env _ b) (.of_apply (.markUnavailable t) rfl)

theorem Interp.reaches_peek {env : Env} {prog : Program} {b b' : Builder}
    {it : Interp} {t : Nat} (h : it.peek env prog b t = some b') :
    Builder.Reaches env b b' := by
  unfold peek at h
  split at h
  · cases h
    exact .refl env b
  · split at h
    · split at h <;> cases h
      · exact .of_apply (.load _) rfl
      · exact .refl env b
    · split at h <;> cases h
      · exact .of_apply (.atomicStore _ _) rfl
      · exact .refl env b
    · split at h
      · exact .trans (.of_apply (.setRmwOperation _ _) rfl)
          (.of_apply (.atomicRmw _ _) h)
      · cases h
        exact .refl env b
    · split at h
      · exact .trans (.of_apply (.setCmpxchgOperation _ _) rfl)
          (.of_apply (.compareExchange _ _ _) h)
      · cases h
        exact .refl env b
    · cases h
      exact .refl env b

theorem Interp.reaches_round {env : Env} {prog : Program} {b b' : Builder}
    {it it' : Interp} {t : Nat}
    (h : it.round env prog b t = some (b', it')) : Builder.Reaches env b b' := by
  unfold round at h
  simp only [Option.bind_eq_bind] at h
  split at h
  · cases h
    exact .of_apply .refuseSchedule rfl
  · simp only [Option.bind_eq_some_iff] at h
    obtain ⟨⟨b1, it1⟩, hexecute, b2, hpeek, h⟩ := h
    cases h
    exact .trans (reaches_execute hexecute) (reaches_peek hpeek)

theorem Interp.reaches_run {env : Env} {prog : Program} {fuel : Nat}
    {b b' : Builder} {it it' : Interp}
    (h : run env prog fuel b it = some (b', it')) : Builder.Reaches env b b' := by
  induction fuel generalizing b it with
  | zero => cases h
  | succ fuel ih =>
    unfold run at h
    simp only [Option.bind_eq_bind] at h
    split at h
    · rw [Option.bind_eq_some_iff] at h
      obtain ⟨⟨b1, it1⟩, hround, h⟩ := h
      exact .trans (reaches_round hround) (ih h)
    · rw [Option.bind_eq_some_iff] at h
      obtain ⟨⟨b1, proc⟩, hschedule, h⟩ := h
      have hfirst : Builder.Reaches env b b1 :=
        .of_apply .schedule (by rw [Builder.apply, hschedule]; rfl)
      cases proc with
      | none =>
        cases h
        exact hfirst
      | some t =>
        simp only [Option.bind_eq_some_iff] at h
        obtain ⟨⟨b2, it2⟩, hround, h⟩ := h
        exact .trans hfirst (.trans (reaches_round hround) (ih h))

/-- An execution of a program is a sequence of calls. -/
theorem reaches_runOnce {env : Env} {prog : Program} {b b' : Builder}
    (h : runOnce env prog b = some b') : Builder.Reaches env b b' := by
  rw [runOnce, Option.map_eq_some_iff] at h
  obtain ⟨⟨b1, it⟩, hrun, rfl⟩ := h
  exact Interp.reaches_run hrun

namespace Builder

/-! ## The start of an execution -/

/-- An execution starts with the data of a new builder exactly when no thread
was spawned or joined in the whole run, and the execution before left no
event enabled. -/
theorem startsClean_iff {env : Env} {checkOptimality : Bool}
    {ops : List Operation} {b b' : Builder}
    (hrun : (construct checkOptimality).run env ops = some b)
    (hreset : b.reset env = some (b', true)) :
    b'.StartsClean ↔
      (∀ op ∈ ops, ¬ op.ordersThreads) ∧ b.enabled = [] := by
  have hcausality : b'.NoCausality ↔ ∀ op ∈ ops, ¬ op.ordersThreads := by
    unfold NoCausality
    rw [causality_reset hreset]
    have hconstruct : (construct checkOptimality).NoCausality := rfl
    have := noCausality_run hrun
    rw [← NoCausality, this]
    simp [hconstruct]
  obtain ⟨b1, hexec, ⟨hmore, _⟩ | ⟨state, _, rfl⟩⟩ := reset_cases hreset
  · cases hmore
  · have henabled : (b1.restart state).enabled = b.enabled :=
      congrArg Execution.enabled hexec
    constructor
    · intro h
      refine ⟨hcausality.mp ?_, henabled ▸ h.enabled⟩
      unfold NoCausality causality
      rw [h.spawnSummary, h.joinSummary, h.cps]
    · rintro ⟨hops, hempty⟩
      have hnone := hcausality.mpr hops
      exact {
        threads := rfl
        mem := rfl
        lastWrite := rfl
        enabled := henabled.trans hempty
        spawnSummary := congrArg (·.1) hnone
        joinSummary := congrArg (·.2.1) hnone
        cps := congrArg (·.2.2) hnone }

/-- Main spawns a thread and loads `x`; the thread stores to `x`.  Each of
them takes a step before its access. -/
def spawnProgram : Program := fun code results =>
  match code, results.length with
  | 0, 0 => .skip
  | 0, 1 => .spawn 1
  | 0, 2 => .load (globalInt 0)
  | 1, 0 => .skip
  | 1, 1 => .store (globalInt 0) 1
  | _, _ => .ret

/-- The second execution of the program starts with the first spawn. -/
theorem spawnProgram_restart :
    ∃ b b', runOnce (.inOrder 40) spawnProgram (construct false) = some b ∧
      b.reset (.inOrder 40) = some (b', true) ∧ b.enabled = [] ∧
      b'.spawnSummary = [(0, [(1, 1)])] := by
  have hrun : ((runOnce (.inOrder 40) spawnProgram (construct false)).any fun b =>
      (b.reset (.inOrder 40)).any fun r => r.2 && b.enabled = [] &&
        r.1.spawnSummary = [(0, [(1, 1)])]) = true := by decide +kernel
  rw [Option.any_eq_true] at hrun
  obtain ⟨b, hb, hrun⟩ := hrun
  rw [Option.any_eq_true] at hrun
  obtain ⟨⟨b', more⟩, hreset, hrun⟩ := hrun
  simp only [Bool.and_eq_true, decide_eq_true_eq] at hrun
  obtain ⟨⟨rfl, henabled⟩, hspawn⟩ := hrun
  exact ⟨b, b', hb, hreset, henabled, hspawn⟩

theorem startsClean_iff_spawnProgram :
    ∃ ops b b', (construct false).run (.inOrder 40) ops = some b ∧
      b.reset (.inOrder 40) = some (b', true) ∧
      (b'.StartsClean ↔
        (∀ op ∈ ops, ¬ op.ordersThreads) ∧ b.enabled = []) := by
  obtain ⟨b, b', hrun, hreset, _, _⟩ := spawnProgram_restart
  obtain ⟨ops, hops⟩ := reaches_runOnce hrun
  exact ⟨ops, b, b', hops, hreset, startsClean_iff hops hreset⟩

/-- The second execution of a program with two threads does not start
clean. -/
theorem not_startsClean :
    ∃ b b', runOnce (.inOrder 40) spawnProgram (construct false) = some b ∧
      b.reset (.inOrder 40) = some (b', true) ∧ ¬ b'.StartsClean := by
  obtain ⟨b, b', hrun, hreset, _, hspawn⟩ := spawnProgram_restart
  refine ⟨b, b', hrun, hreset, fun hclean => ?_⟩
  rw [hclean.spawnSummary] at hspawn
  cases hspawn

end Builder

end ViEqui
