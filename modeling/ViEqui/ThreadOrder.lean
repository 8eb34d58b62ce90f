import ViEqui.Operations
import Mathlib.Logic.Relation

/-!
# The order of threads

`spawn_summary` and `join_summary` are updated at each spawn and join of an
execution.  `ordered_by_spawn` and `ordered_by_join` read from them whether
one event precedes another one.

* `ThreadStep`, `ExecutionPrefix`: the steps of an execution as far as they
  matter here, with the summaries that they leave behind.
* `SpawnPath`, `JoinPath`: what the entries of the two summaries stand for.
* `Before`: the closure of program order, spawn edges and join edges;
  `SpawnOrder` and `JoinOrder` leave one kind of edge out.
* `orderedBySpawn_iff`, `orderedByJoin_iff`: each function is exact for the
  closure under its own kind of edge.
-/

namespace ViEqui

open AssocMap

/-! ## Executions -/

/-- What a step of a thread does to the threads. -/
inductive ThreadStep where
  | spawn (child : Nat)
  | join (tgt : Nat)
  | other
deriving DecidableEq

/-- The step starts a thread. -/
def ThreadStep.spawns : ThreadStep → Bool
  | .spawn _ => true
  | _ => false

/-- The steps of an execution in the order of time, with their threads. -/
abbrev Steps := List (Nat × ThreadStep)

namespace Steps

/-- The steps of thread `t`. -/
def ofThread (X : Steps) (t : Nat) : List ThreadStep :=
  (X.filter (fun x => x.1 = t)).map Prod.snd

/-- The event `e` is the step `k`. -/
def At (X : Steps) (e : IID) (k : ThreadStep) : Prop :=
  (X.ofThread e.pid)[e.idx]? = some k

/-- `e` is an event of the execution. -/
def IsEvent (X : Steps) (e : IID) : Prop := e.idx < (X.ofThread e.pid).length

instance (X : Steps) (e : IID) : Decidable (X.IsEvent e) :=
  inferInstanceAs (Decidable (e.idx < (X.ofThread e.pid).length))

/-- The number of threads: the main thread and one for each spawn. -/
def numThreads (X : Steps) : Nat :=
  1 + X.countP (fun x => x.2.spawns)

/-- Thread `t` can take the step `k`: a new thread gets the next identifier,
and a join names another thread. -/
def Allowed (X : Steps) (t : Nat) : ThreadStep → Prop
  | .spawn child => child = X.numThreads
  | .join tgt => tgt ≠ t ∧ tgt < X.numThreads
  | .other => True

end Steps

/-- The update of the summaries at the step `k` with the identifier `iid`. -/
def Container.observe (c : Container) (iid : IID) : ThreadStep → Container
  | .spawn child => c.updateSpawnSummary { Event.makeSpawn child with iid }
  | .join tgt => c.updateJoinSummary { Event.makeJoin tgt with iid }
  | .other => c

/-- An execution and the summaries after it.  A step is taken by a thread
that exists and that no thread has joined: a join waits for its target. -/
inductive ExecutionPrefix : Steps → Container → Prop
  | start : ExecutionPrefix [] {}
  | step {X c} (t : Nat) (k : ThreadStep) (hX : ExecutionPrefix X c)
      (hthread : t < X.numThreads) (hjoined : ∀ e, ¬ X.At e (.join t))
      (hallowed : X.Allowed t k) :
      ExecutionPrefix (X ++ [(t, k)])
        (c.observe ⟨t, (X.ofThread t).length⟩ k)

/-- `spawn` updates the summaries as the model of an execution does.  Its
event takes the place of the one that `schedule` appended. -/
theorem Builder.spawn_observe (b : Builder) :
    let t := b.currentThread
    let iid : IID := ⟨t, (b.popEvent t).threadSize t⟩
    let c := b.toContainer.observe iid (.spawn b.threads.length)
    b.spawn.spawnSummary = c.spawnSummary ∧
      b.spawn.joinSummary = c.joinSummary :=
  ⟨rfl, rfl⟩

theorem Container.spawnSummary_updateJoinSummary (c : Container) (e : Event) :
    (c.updateJoinSummary e).spawnSummary = c.spawnSummary := by
  unfold updateJoinSummary
  simp only
  split <;> rfl

theorem Container.joinSummary_updateJoinSummary (c : Container) (e : Event) :
    (c.updateJoinSummary e).joinSummary =
      let mine := getD c.joinSummary e.iid.pid []
      if contains mine e.object.1 then c.joinSummary
      else insert c.joinSummary e.iid.pid
        ((getD c.joinSummary e.object.1 []).foldl
          (fun m t => if contains m t.1 then m else insert m t.1 e.iid.idx)
          (insert mine e.object.1 e.iid.idx)) := by
  unfold updateJoinSummary
  simp only
  split <;> rfl

/-- `join` updates the summaries as the model of an execution does. -/
theorem Builder.join_observe (b : Builder) (tgt : Nat) :
    let t := b.currentThread
    let iid : IID := ⟨t, (b.popEvent t).threadSize t⟩
    let c := b.toContainer.observe iid (.join tgt)
    (b.join tgt).spawnSummary = c.spawnSummary ∧
      (b.join tgt).joinSummary = c.joinSummary := by
  simp only [join, Container.observe,
    Container.spawnSummary_updateJoinSummary,
    Container.joinSummary_updateJoinSummary]
  exact ⟨rfl, rfl⟩

namespace Steps

/-! ## One more step -/

theorem ofThread_concat (X : Steps) (t u : Nat) (k : ThreadStep) :
    ofThread (X ++ [(t, k)]) u =
      if u = t then X.ofThread u ++ [k] else X.ofThread u := by
  unfold ofThread
  by_cases h : u = t
  · subst h
    simp
  · simp [h, Ne.symm h]

theorem at_concat {X : Steps} {t : Nat} {k k' : ThreadStep} {e : IID} :
    At (X ++ [(t, k)]) e k' ↔
      X.At e k' ∨ e = ⟨t, (X.ofThread t).length⟩ ∧ k' = k := by
  obtain ⟨pid, idx⟩ := e
  unfold At
  rw [ofThread_concat]
  by_cases h : pid = t
  · subst h
    simp only [if_true, IID.mk.injEq, true_and]
    rw [List.getElem?_append]
    split
    · next hlt =>
      constructor
      · exact .inl
      · rintro (h | ⟨rfl, _⟩)
        · exact h
        · exact absurd hlt (Nat.lt_irrefl _)
    · next hge =>
      rw [List.getElem?_eq_none (Nat.le_of_not_lt hge)]
      constructor
      · intro h
        obtain ⟨hidx, hk⟩ := List.getElem?_eq_some_iff.mp h
        simp only [List.length_cons, List.length_nil] at hidx
        have hzero : idx - (X.ofThread pid).length = 0 := by omega
        simp only [hzero, List.getElem_cons_zero] at hk
        exact .inr ⟨by omega, hk.symm⟩
      · rintro (h | ⟨rfl, rfl⟩)
        · cases h
        · simp
  · simp [h]

theorem At.isEvent {X : Steps} {e : IID} {k : ThreadStep} (h : X.At e k) :
    X.IsEvent e :=
  (List.getElem?_eq_some_iff.mp h).1

theorem isEvent_concat {X : Steps} {t : Nat} {k : ThreadStep} {e : IID} :
    IsEvent (X ++ [(t, k)]) e ↔ X.IsEvent e ∨ e = ⟨t, (X.ofThread t).length⟩ := by
  obtain ⟨pid, idx⟩ := e
  unfold IsEvent
  rw [ofThread_concat]
  by_cases h : pid = t
  · subst h
    simp only [if_true, List.length_append, List.length_singleton, IID.mk.injEq, true_and]
    omega
  · simp [h]

theorem numThreads_concat (X : Steps) (t : Nat) (k : ThreadStep) :
    numThreads (X ++ [(t, k)]) =
      X.numThreads + if k.spawns then 1 else 0 := by
  unfold numThreads
  rw [List.countP_append, List.countP_singleton, Nat.add_assoc]

/-! ## What the summaries stand for -/

/-- Thread `u` descends from `t` through the spawn with index `s`. -/
inductive SpawnPath (X : Steps) : Nat → Nat → Nat → Prop
  | direct {t s u} : X.At ⟨t, s⟩ (.spawn u) → SpawnPath X t s u
  | step {t s v i u} : SpawnPath X t s v → X.At ⟨v, i⟩ (.spawn u) →
      SpawnPath X t s u

/-- Thread `u` ends before the join of `t` with index `j`. -/
inductive JoinPath (X : Steps) : Nat → Nat → Nat → Prop
  | direct {u t j} : X.At ⟨t, j⟩ (.join u) → JoinPath X u t j
  | step {u v i t j} : JoinPath X u v i → X.At ⟨t, j⟩ (.join v) →
      JoinPath X u t j

theorem JoinPath.isEvent {X : Steps} {u t j : Nat} (h : JoinPath X u t j) :
    X.IsEvent ⟨t, j⟩ := by
  cases h with
  | direct hjoin => exact hjoin.isEvent
  | step _ hjoin => exact hjoin.isEvent

theorem JoinPath.trans {X : Steps} {u v i t j : Nat} (h : JoinPath X u v i)
    (h' : JoinPath X v t j) : JoinPath X u t j := by
  induction h' with
  | direct hjoin => exact .step h hjoin
  | step _ hjoin ih => exact .step ih hjoin

end Steps

open Steps

namespace ExecutionPrefix

variable {X : Steps} {c : Container}

/-- The steps are taken by threads that exist. -/
theorem pid_lt (h : ExecutionPrefix X c) {e : IID} {k : ThreadStep}
    (hat : X.At e k) : e.pid < X.numThreads := by
  induction h with
  | start => cases hat
  | step t k' hX hthread hjoined hallowed ih =>
    rw [numThreads_concat]
    rcases at_concat.mp hat with hat | ⟨rfl, _⟩
    · have := ih hat
      omega
    · exact Nat.lt_add_right _ hthread

/-- A thread is spawned once it exists, by a thread with a smaller number. -/
theorem spawned_lt (h : ExecutionPrefix X c) {e : IID} {u : Nat}
    (hat : X.At e (.spawn u)) : e.pid < u ∧ u < X.numThreads := by
  induction h with
  | start => cases hat
  | step t k hX hthread hjoined hallowed ih =>
    rw [numThreads_concat]
    rcases at_concat.mp hat with hat | ⟨rfl, rfl⟩
    · have := ih hat
      omega
    · have hchild : u = _ := hallowed
      subst hchild
      exact ⟨hthread, by simp [ThreadStep.spawns]⟩

theorem spawnPath_lt (h : ExecutionPrefix X c) {t s u : Nat}
    (hpath : SpawnPath X t s u) : t < u ∧ u < X.numThreads := by
  induction hpath with
  | direct hspawn => exact h.spawned_lt hspawn
  | step _ hspawn ih =>
    have := h.spawned_lt hspawn
    simp only at this
    omega

end ExecutionPrefix

/-! ## The spawn summary -/

/-- The paths behind a spawn by `t` of the new thread `u`. -/
theorem Steps.spawnPath_concat {X : Steps} {c : Container}
    (h : ExecutionPrefix X c) {t a s w : Nat} (ht : t < X.numThreads) :
    SpawnPath (X ++ [(t, .spawn X.numThreads)]) a s w ↔
      SpawnPath X a s w ∨ w = X.numThreads ∧
        (a = t ∧ s = (X.ofThread t).length ∨ SpawnPath X a s t) := by
  constructor
  · intro hpath
    induction hpath with
    | direct hspawn =>
      rcases at_concat.mp hspawn with hold | ⟨he, hk⟩
      · exact .inl (.direct hold)
      · cases he
        cases hk
        exact .inr ⟨rfl, .inl ⟨rfl, rfl⟩⟩
    | step hpath hspawn ih =>
      rcases ih with hold | ⟨rfl, hnew⟩
      · rcases at_concat.mp hspawn with hspawn | ⟨he, hk⟩
        · exact .inl (.step hold hspawn)
        · cases he
          cases hk
          exact .inr ⟨rfl, .inr hold⟩
      · -- the new thread has not taken a step
        exfalso
        rcases at_concat.mp hspawn with hspawn | ⟨he, hk⟩
        · exact absurd (h.pid_lt hspawn) (Nat.lt_irrefl _)
        · cases he
          exact absurd ht (Nat.lt_irrefl _)
  · have hmono : ∀ {a s w}, SpawnPath X a s w →
        SpawnPath (X ++ [(t, .spawn X.numThreads)]) a s w := by
      intro a s w hpath
      induction hpath with
      | direct hspawn => exact .direct (at_concat.mpr (.inl hspawn))
      | step _ hspawn ih => exact .step ih (at_concat.mpr (.inl hspawn))
    have hspawn : At (X ++ [(t, .spawn X.numThreads)])
        ⟨t, (X.ofThread t).length⟩ (.spawn X.numThreads) :=
      at_concat.mpr (.inr ⟨rfl, rfl⟩)
    rintro (hold | ⟨rfl, ⟨rfl, rfl⟩ | hpath⟩)
    · exact hmono hold
    · exact .direct hspawn
    · exact .step (hmono hpath) hspawn

/-- A step that is no spawn adds no path. -/
theorem Steps.spawnPath_concat_of_not_spawn {X : Steps} {t a s w : Nat}
    {k : ThreadStep} (hk : ∀ u, k ≠ .spawn u) :
    SpawnPath (X ++ [(t, k)]) a s w ↔ SpawnPath X a s w := by
  have hat : ∀ e u, (X ++ [(t, k)]).At e (.spawn u) ↔ X.At e (.spawn u) := by
    intro e u
    rw [at_concat]
    constructor
    · rintro (h | ⟨_, h⟩)
      · exact h
      · exact absurd h.symm (hk u)
    · exact .inl
  constructor
  · intro hpath
    induction hpath with
    | direct hspawn => exact .direct ((hat _ _).mp hspawn)
    | step _ hspawn ih => exact .step ih ((hat _ _).mp hspawn)
  · intro hpath
    induction hpath with
    | direct hspawn => exact .direct ((hat _ _).mpr hspawn)
    | step _ hspawn ih => exact .step ih ((hat _ _).mpr hspawn)

/-- What the loop of `update_spawn_summary` does to the summary of one
thread: a descendant `tid` hands down the thread `spawned`. -/
def Container.inheritSpawn (tid spawned : Nat) (m : Map Nat Nat) :
    Map Nat Nat :=
  match find? m tid with
  | some idx => insert m spawned idx
  | none => m

theorem Container.find?_inheritSpawn (tid spawned : Nat) (m : Map Nat Nat)
    (w : Nat) :
    find? (inheritSpawn tid spawned m) w =
      if w = spawned then (find? m tid).or (find? m w) else find? m w := by
  unfold inheritSpawn
  cases hm : find? m tid with
  | none => simp
  | some idx =>
    simp only [find?_insert, Option.some_or]
    simp only [eq_comm]

theorem Container.getD_updateSpawnSummary (c : Container) (e : Event)
    (a : Nat) :
    getD (c.updateSpawnSummary e).spawnSummary a [] =
      inheritSpawn e.iid.pid e.object.1 (getD (modify c.spawnSummary e.iid.pid []
        (insert · e.object.1 e.iid.idx)) a []) := by
  have hloop : (c.updateSpawnSummary e).spawnSummary =
      (modify c.spawnSummary e.iid.pid [] (insert · e.object.1 e.iid.idx)).map
        fun it => (it.1, inheritSpawn e.iid.pid e.object.1 it.2) := by
    unfold updateSpawnSummary
    simp only
    refine List.map_congr_left fun it _ => ?_
    unfold inheritSpawn
    cases find? it.2 e.iid.pid <;> rfl
  rw [hloop]
  unfold getD
  rw [find?_map_snd]
  cases find? (modify c.spawnSummary e.iid.pid []
    (insert · e.object.1 e.iid.idx)) a <;> rfl

/-- `spawn_summary` behind the spawn of a thread that no summary names. -/
theorem Container.find?_updateSpawnSummary {c : Container} {e : Event}
    (hne : e.object.1 ≠ e.iid.pid)
    (hself : find? (getD c.spawnSummary e.iid.pid []) e.iid.pid = none)
    (hnew : ∀ a, find? (getD c.spawnSummary a []) e.object.1 = none)
    (a w : Nat) :
    find? (getD (c.updateSpawnSummary e).spawnSummary a []) w =
      if w = e.object.1 then
        if a = e.iid.pid then some e.iid.idx
        else find? (getD c.spawnSummary a []) e.iid.pid
      else find? (getD c.spawnSummary a []) w := by
  rw [getD_updateSpawnSummary, find?_inheritSpawn, getD_modify]
  by_cases ha : e.iid.pid = a
  · subst ha
    rw [if_pos rfl, if_pos rfl, find?_insert_ne _ _ hne, hself, find?_insert]
    by_cases hw : w = e.object.1
    · simp [hw]
    · simp [hw, Ne.symm hw]
  · rw [if_neg ha, if_neg (Ne.symm ha)]
    by_cases hw : w = e.object.1
    · subst hw
      rw [hnew]
      simp
    · simp [hw]

/-- The summary `spawn_summary` holds the spawn paths. -/
def Container.SpawnExact (X : Steps) (c : Container) : Prop :=
  ∀ t u s, find? (getD c.spawnSummary t []) u = some s ↔ SpawnPath X t s u

theorem ExecutionPrefix.spawnExact {X : Steps} {c : Container}
    (h : ExecutionPrefix X c) : c.SpawnExact X := by
  induction h with
  | start =>
    intro t u s
    constructor
    · intro hfind
      cases hfind
    · intro hpath
      obtain ⟨hlt, hu⟩ := ExecutionPrefix.start.spawnPath_lt hpath
      have hone : numThreads [] = 1 := rfl
      omega
  | @step X c t k hX hthread hjoined hallowed ih =>
    intro a w s
    cases k with
    | spawn u =>
      have hu : u = X.numThreads := hallowed
      subst hu
      have hself : find? (getD c.spawnSummary t []) t = none := by
        rw [Option.eq_none_iff_forall_ne_some]
        intro i hfind
        have := hX.spawnPath_lt ((ih _ _ _).mp hfind)
        omega
      have hnew : ∀ a, find? (getD c.spawnSummary a []) X.numThreads = none := by
        intro a
        rw [Option.eq_none_iff_forall_ne_some]
        intro i hfind
        have := hX.spawnPath_lt ((ih _ _ _).mp hfind)
        omega
      rw [spawnPath_concat hX hthread]
      show find? (getD (c.updateSpawnSummary _).spawnSummary a []) w = some s ↔ _
      rw [Container.find?_updateSpawnSummary (Nat.ne_of_gt hthread) hself hnew]
      show (if w = X.numThreads then
          if a = t then some (X.ofThread t).length
          else find? (getD c.spawnSummary a []) t
        else find? (getD c.spawnSummary a []) w) = some s ↔ _
      by_cases hw : w = X.numThreads
      · subst hw
        have hold : ¬ SpawnPath X a s X.numThreads := fun hpath =>
          absurd (hX.spawnPath_lt hpath).2 (Nat.lt_irrefl _)
        rw [if_pos rfl]
        by_cases ha : a = t
        · subst ha
          have hcycle : ¬ SpawnPath X a s a := fun hpath =>
            absurd (hX.spawnPath_lt hpath).1 (Nat.lt_irrefl _)
          simp [hold, hcycle, eq_comm]
        · simp [hold, ha, ih a t s]
      · rw [if_neg hw, ih]
        simp [hw]
    | join v =>
      rw [spawnPath_concat_of_not_spawn (by simp)]
      show find? (getD (c.updateJoinSummary _).spawnSummary a []) w = some s ↔ _
      rw [Container.spawnSummary_updateJoinSummary]
      exact ih a w s
    | other =>
      rw [spawnPath_concat_of_not_spawn (by simp)]
      exact ih a w s

/-! ## The join summary -/

/-- The paths behind a join of `v` by `t`, which no thread has joined. -/
theorem Steps.joinPath_concat {X : Steps} {t v u a j : Nat}
    (hjoined : ∀ e, ¬ X.At e (.join t)) (hv : v ≠ t) :
    JoinPath (X ++ [(t, .join v)]) u a j ↔
      JoinPath X u a j ∨ a = t ∧ j = (X.ofThread t).length ∧
        (u = v ∨ ∃ i, JoinPath X u v i) := by
  constructor
  · intro hpath
    induction hpath with
    | direct hjoin =>
      rcases at_concat.mp hjoin with hold | ⟨he, hk⟩
      · exact .inl (.direct hold)
      · cases he
        cases hk
        exact .inr ⟨rfl, rfl, .inl rfl⟩
    | step hpath hjoin ih =>
      rcases ih with hold | ⟨rfl, _, _⟩
      · rcases at_concat.mp hjoin with hjoin | ⟨he, hk⟩
        · exact .inl (.step hold hjoin)
        · cases he
          cases hk
          exact .inr ⟨rfl, rfl, .inr ⟨_, hold⟩⟩
      · -- the thread that joins now is not joined itself
        exfalso
        rcases at_concat.mp hjoin with hjoin | ⟨_, hk⟩
        · exact hjoined _ hjoin
        · cases hk
          exact hv rfl
  · have hmono : ∀ {u a j}, JoinPath X u a j →
        JoinPath (X ++ [(t, .join v)]) u a j := by
      intro u a j hpath
      induction hpath with
      | direct hjoin => exact .direct (at_concat.mpr (.inl hjoin))
      | step _ hjoin ih => exact .step ih (at_concat.mpr (.inl hjoin))
    have hjoin : At (X ++ [(t, .join v)]) ⟨t, (X.ofThread t).length⟩ (.join v) :=
      at_concat.mpr (.inr ⟨rfl, rfl⟩)
    rintro (hold | ⟨rfl, rfl, rfl | ⟨i, hpath⟩⟩)
    · exact hmono hold
    · exact .direct hjoin
    · exact .step (hmono hpath) hjoin

/-- A step that is no join adds no path. -/
theorem Steps.joinPath_concat_of_not_join {X : Steps} {t u a j : Nat}
    {k : ThreadStep} (hk : ∀ v, k ≠ .join v) :
    JoinPath (X ++ [(t, k)]) u a j ↔ JoinPath X u a j := by
  have hat : ∀ e v, (X ++ [(t, k)]).At e (.join v) ↔ X.At e (.join v) := by
    intro e v
    rw [at_concat]
    constructor
    · rintro (h | ⟨_, h⟩)
      · exact h
      · exact absurd h.symm (hk v)
    · exact .inl
  constructor
  · intro hpath
    induction hpath with
    | direct hjoin => exact .direct ((hat _ _).mp hjoin)
    | step _ hjoin ih => exact .step ih ((hat _ _).mp hjoin)
  · intro hpath
    induction hpath with
    | direct hjoin => exact .direct ((hat _ _).mpr hjoin)
    | step _ hjoin ih => exact .step ih ((hat _ _).mpr hjoin)

/-- `join_summary` behind the join of `v` by a thread without an entry for
`v`. -/
theorem Container.find?_updateJoinSummary {c : Container} {e : Event}
    (hnew : find? (getD c.joinSummary e.iid.pid []) e.object.1 = none)
    (a w : Nat) :
    find? (getD (c.updateJoinSummary e).joinSummary a []) w =
      if a = e.iid.pid then
        if w = e.object.1 then some e.iid.idx
        else (find? (getD c.joinSummary a []) w).or
          (if contains (getD c.joinSummary e.object.1 []) w then
            some e.iid.idx else none)
      else find? (getD c.joinSummary a []) w := by
  have hcontains : ¬ contains (getD c.joinSummary e.iid.pid []) e.object.1 := by
    simp [contains, hnew]
  rw [joinSummary_updateJoinSummary]
  simp only
  rw [if_neg hcontains, getD_insert]
  by_cases ha : e.iid.pid = a
  · subst ha
    rw [if_pos rfl, if_pos rfl, find?_foldl_insert_new, find?_insert]
    by_cases hw : w = e.object.1
    · simp [hw]
    · simp [hw, Ne.symm hw]
  · rw [if_neg ha, if_neg (Ne.symm ha)]

/-- The summary `join_summary` holds, for two threads with a join path, the
index of the first join that ends one. -/
structure Container.JoinExact (X : Steps) (c : Container) : Prop where
  least : ∀ t u j, find? (getD c.joinSummary t []) u = some j →
    JoinPath X u t j ∧ ∀ i, JoinPath X u t i → j ≤ i
  complete : ∀ t u, find? (getD c.joinSummary t []) u = none →
    ∀ j, ¬ JoinPath X u t j

theorem Container.JoinExact.concat_of_not_join {X : Steps} {c c' : Container}
    {t : Nat} {k : ThreadStep} (h : c.JoinExact X) (hk : ∀ v, k ≠ .join v)
    (hkeep : c'.joinSummary = c.joinSummary) :
    c'.JoinExact (X ++ [(t, k)]) := by
  constructor
  · intro a u j hfind
    simp only [joinPath_concat_of_not_join hk]
    rw [hkeep] at hfind
    exact h.least a u j hfind
  · intro a u hfind j
    rw [joinPath_concat_of_not_join hk]
    rw [hkeep] at hfind
    exact h.complete a u hfind j

/-- A join of a thread with an entry: every path it adds is longer. -/
theorem Container.JoinExact.concat_join_old {X : Steps} {c : Container}
    {t v k : Nat} (h : c.JoinExact X) (hjoined : ∀ e, ¬ X.At e (.join t))
    (hv : v ≠ t) (hold : find? (getD c.joinSummary t []) v = some k) :
    c.JoinExact (X ++ [(t, .join v)]) := by
  constructor
  · intro a u j hfind
    obtain ⟨hpath, hleast⟩ := h.least a u j hfind
    refine ⟨(joinPath_concat hjoined hv).mpr (.inl hpath), fun i hi => ?_⟩
    rcases (joinPath_concat hjoined hv).mp hi with hi | ⟨rfl, rfl, _⟩
    · exact hleast i hi
    · exact Nat.le_of_lt hpath.isEvent
  · intro a u hfind j hpath
    rcases (joinPath_concat hjoined hv).mp hpath with hpath | ⟨rfl, _, hu⟩
    · exact h.complete a u hfind j hpath
    · have hvt : JoinPath X v a k := (h.least a v k hold).1
      rcases hu with rfl | ⟨i, huv⟩
      · exact h.complete a u hfind k hvt
      · exact h.complete a u hfind k (huv.trans hvt)

/-- A join of a thread without an entry. -/
theorem Container.JoinExact.concat_join_new {X : Steps} {c c' : Container}
    {t v : Nat} (h : c.JoinExact X) (hjoined : ∀ e, ¬ X.At e (.join t))
    (hv : v ≠ t) (hnew : find? (getD c.joinSummary t []) v = none)
    (hfind' : ∀ a w, find? (getD c'.joinSummary a []) w =
      if a = t then
        if w = v then some (X.ofThread t).length
        else (find? (getD c.joinSummary a []) w).or
          (if contains (getD c.joinSummary v []) w then
            some (X.ofThread t).length else none)
      else find? (getD c.joinSummary a []) w) :
    c'.JoinExact (X ++ [(t, .join v)]) := by
  -- an entry for `w` in the summary of `v` is a path, and the other way round
  have hcontains : ∀ w, contains (getD c.joinSummary v []) w ↔
      ∃ i, JoinPath X w v i := by
    intro w
    unfold contains
    cases hw : find? (getD c.joinSummary v []) w with
    | none => simpa using h.complete v w hw
    | some i => simpa using ⟨i, (h.least v w i hw).1⟩
  constructor
  · intro a u j hfind
    rw [hfind'] at hfind
    -- an old entry stays the least one
    have hstay : find? (getD c.joinSummary a []) u = some j →
        JoinPath (X ++ [(t, .join v)]) u a j ∧
          ∀ i, JoinPath (X ++ [(t, .join v)]) u a i → j ≤ i := by
      intro hold
      obtain ⟨hpath, hleast⟩ := h.least a u j hold
      refine ⟨(joinPath_concat hjoined hv).mpr (.inl hpath), fun i hi => ?_⟩
      rcases (joinPath_concat hjoined hv).mp hi with hi | ⟨rfl, rfl, _⟩
      · exact hleast i hi
      · exact Nat.le_of_lt hpath.isEvent
    -- an entry that this join adds is the first one
    have hadd : a = t → find? (getD c.joinSummary a []) u = none →
        j = (X.ofThread t).length → (u = v ∨ ∃ i, JoinPath X u v i) →
        JoinPath (X ++ [(t, .join v)]) u a j ∧
          ∀ i, JoinPath (X ++ [(t, .join v)]) u a i → j ≤ i := by
      intro ha hnone hj hu
      refine ⟨(joinPath_concat hjoined hv).mpr (.inr ⟨ha, hj, hu⟩),
        fun i hi => ?_⟩
      rcases (joinPath_concat hjoined hv).mp hi with hi | ⟨_, hi, _⟩
      · exact absurd hi (h.complete a u hnone i)
      · omega
    by_cases ha : a = t
    · rw [if_pos ha] at hfind
      by_cases hu : u = v
      · rw [if_pos hu] at hfind
        subst ha hu
        exact hadd rfl hnew (Option.some.inj hfind).symm (.inl rfl)
      · rw [if_neg hu] at hfind
        cases hold : find? (getD c.joinSummary a []) u with
        | some k =>
          rw [hold] at hfind
          exact hstay (hold.trans hfind)
        | none =>
          rw [hold] at hfind
          by_cases hin : contains (getD c.joinSummary v []) u
          · rw [if_pos hin] at hfind
            exact hadd ha hold (Option.some.inj hfind).symm
              (.inr ((hcontains u).mp hin))
          · rw [if_neg hin] at hfind
            cases hfind
    · rw [if_neg ha] at hfind
      exact hstay hfind
  · intro a u hfind j hpath
    rw [hfind'] at hfind
    rcases (joinPath_concat hjoined hv).mp hpath with hpath | ⟨rfl, _, hu⟩
    · refine h.complete a u ?_ j hpath
      by_cases ha : a = t
      · rw [if_pos ha] at hfind
        by_cases hu : u = v
        · rw [if_pos hu] at hfind
          cases hfind
        · rw [if_neg hu, Option.or_eq_none_iff] at hfind
          exact hfind.1
      · rwa [if_neg ha] at hfind
    · rw [if_pos rfl] at hfind
      rcases hu with rfl | hu
      · rw [if_pos rfl] at hfind
        cases hfind
      · by_cases huv : u = v
        · rw [if_pos huv] at hfind
          cases hfind
        · rw [if_neg huv, if_pos ((hcontains u).mpr hu),
            Option.or_eq_none_iff] at hfind
          cases hfind.2

theorem ExecutionPrefix.joinExact {X : Steps} {c : Container}
    (h : ExecutionPrefix X c) : c.JoinExact X := by
  induction h with
  | start =>
    constructor
    · intro t u j hfind
      cases hfind
    · intro t u _ j hpath
      exact absurd hpath.isEvent (Nat.not_lt_zero _)
  | @step X c t k hX hthread hjoined hallowed ih =>
    cases k with
    | join v =>
      have hv : v ≠ t := hallowed.1
      cases hold : find? (getD c.joinSummary t []) v with
      | some k =>
        have hkeep : (c.observe ⟨t, (X.ofThread t).length⟩ (.join v)).joinSummary
            = c.joinSummary := by
          unfold Container.observe
          simp only [Container.joinSummary_updateJoinSummary]
          exact if_pos (by simp [contains, Event.makeJoin, hold])
        have hexact := ih.concat_join_old hjoined hv hold
        exact ⟨fun a u j hfind => hexact.least a u j (by rwa [hkeep] at hfind),
          fun a u hfind => hexact.complete a u (by rwa [hkeep] at hfind)⟩
      | none =>
        exact ih.concat_join_new hjoined hv hold
          (Container.find?_updateJoinSummary hold)
    | spawn u => exact ih.concat_of_not_join (by simp) rfl
    | other => exact ih.concat_of_not_join (by simp) rfl

/-! ## The order of events -/

namespace Steps

variable (X : Steps)

/-- `f` follows `e` in the same thread. -/
def ProgramOrder (e f : IID) : Prop :=
  e.pid = f.pid ∧ e.idx < f.idx ∧ X.IsEvent f

/-- `e` spawns the thread of `f`. -/
def SpawnEdge (e f : IID) : Prop := X.At e (.spawn f.pid) ∧ X.IsEvent f

/-- `f` joins the thread of `e`. -/
def JoinEdge (e f : IID) : Prop := X.IsEvent e ∧ X.At f (.join e.pid)

/-- `e` precedes `f` in the closure of program order, spawn-to-child and
child-to-join edges. -/
def Before : IID → IID → Prop :=
  Relation.TransGen fun e f =>
    X.ProgramOrder e f ∨ X.SpawnEdge e f ∨ X.JoinEdge e f

/-- The closure without joins. -/
def SpawnOrder : IID → IID → Prop :=
  Relation.TransGen fun e f => X.ProgramOrder e f ∨ X.SpawnEdge e f

/-- The closure without spawns. -/
def JoinOrder : IID → IID → Prop :=
  Relation.TransGen fun e f => X.ProgramOrder e f ∨ X.JoinEdge e f

/-- `e` precedes `f`, and every chain from `e` to `f` has both a spawn and a
join edge. -/
def OnlyMixed (e f : IID) : Prop :=
  X.Before e f ∧ ¬ X.SpawnOrder e f ∧ ¬ X.JoinOrder e f

variable {X}

theorem SpawnOrder.before {e f : IID} (h : X.SpawnOrder e f) : X.Before e f :=
  Relation.TransGen.mono (fun _ _ hedge => Or.imp_right Or.inl hedge) _ _ h

theorem JoinOrder.before {e f : IID} (h : X.JoinOrder e f) : X.Before e f :=
  Relation.TransGen.mono (fun _ _ hedge => Or.imp_right Or.inr hedge) _ _ h

/-- An order between threads without joins is a spawn path. -/
theorem SpawnOrder.path {e f : IID} (h : X.SpawnOrder e f) :
    e.pid = f.pid ∧ e.idx < f.idx ∨
      ∃ s, SpawnPath X e.pid s f.pid ∧ e.idx ≤ s := by
  induction h with
  | single hedge =>
    rcases hedge with ⟨hpid, hlt, _⟩ | ⟨hspawn, _⟩
    · exact .inl ⟨hpid, hlt⟩
    · exact .inr ⟨e.idx, .direct hspawn, Nat.le_refl _⟩
  | @tail f g _ hedge ih =>
    rcases hedge with ⟨hpid, hlt, _⟩ | ⟨hspawn, _⟩
    · rw [← hpid]
      rcases ih with ⟨hpid', hlt'⟩ | hpath
      · exact .inl ⟨hpid', Nat.lt_trans hlt' hlt⟩
      · exact .inr hpath
    · rcases ih with ⟨hpid', hlt'⟩ | ⟨s, hpath, hs⟩
      · refine .inr ⟨f.idx, .direct ?_, Nat.le_of_lt hlt'⟩
        rw [hpid']
        exact hspawn
      · exact .inr ⟨s, .step hpath hspawn, hs⟩

theorem SpawnPath.order {t s u : Nat} (h : SpawnPath X t s u) {e f : IID}
    (he : e.pid = t) (hs : e.idx ≤ s) (hf : f.pid = u) (hevent : X.IsEvent f) :
    X.SpawnOrder e f := by
  induction h generalizing f with
  | direct hspawn =>
    subst hf
    have hlast : X.SpawnOrder ⟨t, s⟩ f := .single (.inr ⟨hspawn, hevent⟩)
    obtain rfl | hlt := Nat.eq_or_lt_of_le hs
    · subst he
      exact hlast
    · exact .head (.inl ⟨he, hlt, hspawn.isEvent⟩) hlast
  | step _ hspawn ih =>
    subst hf
    exact .tail (ih rfl hspawn.isEvent) (.inr ⟨hspawn, hevent⟩)

/-- An order between threads without spawns is a join path. -/
theorem JoinOrder.path {e f : IID} (h : X.JoinOrder e f) :
    e.pid = f.pid ∧ e.idx < f.idx ∨
      ∃ j, JoinPath X e.pid f.pid j ∧ j ≤ f.idx := by
  induction h with
  | @single f hedge =>
    rcases hedge with ⟨hpid, hlt, _⟩ | ⟨_, hjoin⟩
    · exact .inl ⟨hpid, hlt⟩
    · exact .inr ⟨f.idx, .direct hjoin, Nat.le_refl _⟩
  | @tail f g _ hedge ih =>
    rcases hedge with ⟨hpid, hlt, _⟩ | ⟨_, hjoin⟩
    · rw [← hpid]
      rcases ih with ⟨hpid', hlt'⟩ | ⟨j, hpath, hj⟩
      · exact .inl ⟨hpid', Nat.lt_trans hlt' hlt⟩
      · exact .inr ⟨j, hpath, Nat.le_trans hj (Nat.le_of_lt hlt)⟩
    · rcases ih with ⟨hpid', _⟩ | ⟨j, hpath, _⟩
      · refine .inr ⟨g.idx, .direct ?_, Nat.le_refl _⟩
        rw [hpid']
        exact hjoin
      · exact .inr ⟨g.idx, .step hpath hjoin, Nat.le_refl _⟩

theorem JoinPath.order {u t j : Nat} (h : JoinPath X u t j) {e f : IID}
    (he : e.pid = u) (hevent : X.IsEvent e) (hf : f.pid = t) (hj : j ≤ f.idx)
    (hevent' : X.IsEvent f) : X.JoinOrder e f := by
  -- the join itself follows `e`, and `f` is the join or follows it
  have hjoin : X.JoinOrder e ⟨t, j⟩ := by
    clear hf hj hevent'
    induction h with
    | direct hjoin =>
      subst he
      exact .single (.inr ⟨hevent, hjoin⟩)
    | step hpath hjoin ih =>
      exact .tail ih (.inr ⟨hpath.isEvent, hjoin⟩)
  obtain rfl | hlt := Nat.eq_or_lt_of_le hj
  · subst hf
    exact hjoin
  · exact .tail hjoin (.inl ⟨hf.symm, hlt, hevent'⟩)

end Steps

/-! ## Exactness -/

namespace ExecutionPrefix

variable {X : Steps} {c : Container} {e1 e2 : IID}

theorem orderedBySpawn_iff_path (h : ExecutionPrefix X c) :
    c.orderedBySpawn e1 e2 ↔ ∃ s, SpawnPath X e1.pid s e2.pid ∧ e1.idx ≤ s := by
  simp only [← h.spawnExact _ _ _]
  unfold Container.orderedBySpawn
  cases find? (getD c.spawnSummary e1.pid []) e2.pid <;> simp

theorem orderedByJoin_iff_path (h : ExecutionPrefix X c) :
    c.orderedByJoin e1 e2 ↔ ∃ j, JoinPath X e1.pid e2.pid j ∧ j ≤ e2.idx := by
  unfold Container.orderedByJoin
  cases hfind : find? (getD c.joinSummary e2.pid []) e1.pid with
  | none =>
    have hnone := h.joinExact.complete _ _ hfind
    simp [hnone]
  | some join =>
    obtain ⟨hpath, hleast⟩ := h.joinExact.least _ _ _ hfind
    constructor
    · intro hle
      exact ⟨join, hpath, of_decide_eq_true hle⟩
    · intro ⟨j, hj, hle⟩
      exact decide_eq_true (Nat.le_trans (hleast j hj) hle)

/-- `ordered_by_spawn` is exact for chains without joins. -/
theorem orderedBySpawn_iff (h : ExecutionPrefix X c) (he2 : X.IsEvent e2)
    (hne : e1.pid ≠ e2.pid) :
    c.orderedBySpawn e1 e2 ↔ X.SpawnOrder e1 e2 := by
  rw [h.orderedBySpawn_iff_path]
  constructor
  · intro ⟨s, hpath, hs⟩
    exact hpath.order rfl hs rfl he2
  · intro horder
    exact horder.path.resolve_left fun hsame => hne hsame.1

/-- `ordered_by_join` is exact for chains without spawns. -/
theorem orderedByJoin_iff (h : ExecutionPrefix X c) (he1 : X.IsEvent e1)
    (he2 : X.IsEvent e2) (hne : e1.pid ≠ e2.pid) :
    c.orderedByJoin e1 e2 ↔ X.JoinOrder e1 e2 := by
  rw [h.orderedByJoin_iff_path]
  constructor
  · intro ⟨j, hpath, hj⟩
    exact hpath.order rfl he1 rfl hj he2
  · intro horder
    exact horder.path.resolve_left fun hsame => hne hsame.1

/-- What the summaries order is in order. -/
theorem before_of_ordered (h : ExecutionPrefix X c) (he1 : X.IsEvent e1)
    (he2 : X.IsEvent e2) (hord : c.ordered e1 e2) : X.Before e1 e2 := by
  rw [Container.ordered, Bool.or_eq_true, h.orderedByJoin_iff_path,
    h.orderedBySpawn_iff_path] at hord
  rcases hord with ⟨j, hpath, hj⟩ | ⟨s, hpath, hs⟩
  · exact (hpath.order rfl he1 rfl hj he2).before
  · exact (hpath.order rfl hs rfl he2).before

/-- The summaries are exact for the pairs of events that some chain with one
kind of edge orders, or that no chain orders. -/
theorem ordered_iff_before_iff (h : ExecutionPrefix X c) (he1 : X.IsEvent e1)
    (he2 : X.IsEvent e2) (hne : e1.pid ≠ e2.pid) :
    ((c.orderedByJoin e1 e2 ∨ c.orderedBySpawn e1 e2) ↔ X.Before e1 e2) ↔
      ¬ X.OnlyMixed e1 e2 := by
  rw [h.orderedByJoin_iff he1 he2 hne, h.orderedBySpawn_iff he2 hne]
  unfold OnlyMixed
  constructor
  · intro hiff ⟨hbefore, hspawn, hjoin⟩
    rcases hiff.mpr hbefore with h' | h'
    · exact hjoin h'
    · exact hspawn h'
  · intro hmixed
    constructor
    · intro horder
      exact horder.elim JoinOrder.before SpawnOrder.before
    · intro hbefore
      by_contra hnot
      rw [not_or] at hnot
      exact hmixed ⟨hbefore, hnot.2, hnot.1⟩

/-- Nothing follows the last event. -/
theorem not_edge_last (h : ExecutionPrefix X c) {t : Nat} {k : ThreadStep} {f : IID}
    (hthread : t < X.numThreads) (hjoined : ∀ e, ¬X.At e (.join t))
    (hallowed : X.Allowed t k) :
    ¬(ProgramOrder (X ++ [(t, k)]) ⟨t, (X.ofThread t).length⟩ f ∨
      SpawnEdge (X ++ [(t, k)]) ⟨t, (X.ofThread t).length⟩ f ∨
      JoinEdge (X ++ [(t, k)]) ⟨t, (X.ofThread t).length⟩ f) := by
  have hlast : ¬X.IsEvent ⟨t, (X.ofThread t).length⟩ := Nat.lt_irrefl _
  rintro (⟨hpid, hlt, hf⟩ | ⟨hspawn, hf⟩ | ⟨_, hjoin⟩)
  · simp only at hpid hlt
    rcases isEvent_concat.mp hf with hf | rfl
    · unfold IsEvent at hf
      rw [← hpid] at hf
      omega
    · exact Nat.lt_irrefl _ hlt
  · rcases at_concat.mp hspawn with hspawn | ⟨_, rfl⟩
    · exact hlast hspawn.isEvent
    · -- the new thread has no events
      have hnew : f.pid = X.numThreads := hallowed
      rcases isEvent_concat.mp hf with hf | rfl
      · have hlt := h.pid_lt (List.getElem?_eq_getElem hf)
        omega
      · simp only at hnew
        omega
  · rcases at_concat.mp hjoin with hjoin | ⟨_, rfl⟩
    · exact hjoined f hjoin
    · exact hallowed.1 rfl

/-- No event comes before itself. -/
theorem not_before_self (h : ExecutionPrefix X c) (e : IID) : ¬X.Before e e := by
  induction h generalizing e with
  | start =>
    intro hbefore
    obtain ⟨f, hedge, _⟩ := Relation.TransGen.head'_iff.mp hbefore
    rcases hedge with ⟨_, _, hf⟩ | ⟨_, hf⟩ | ⟨he, _⟩
    · exact absurd hf (Nat.not_lt_zero _)
    · exact absurd hf (Nat.not_lt_zero _)
    · exact absurd he (Nat.not_lt_zero _)
  | @step X c t k hX hthread hjoined hallowed ih =>
    have hlast : ∀ {a b : IID}, ProgramOrder (X ++ [(t, k)]) a b ∨
        SpawnEdge (X ++ [(t, k)]) a b ∨ JoinEdge (X ++ [(t, k)]) a b →
        a ≠ ⟨t, (X.ofThread t).length⟩ := by
      rintro a b hedge rfl
      exact hX.not_edge_last hthread hjoined hallowed hedge
    -- a chain that does not end in the last event was there before
    have hchain : ∀ {a b : IID}, Before (X ++ [(t, k)]) a b →
        b ≠ ⟨t, (X.ofThread t).length⟩ → X.Before a b := by
      intro a b hab
      have hold : ∀ {a b : IID}, ProgramOrder (X ++ [(t, k)]) a b ∨
          SpawnEdge (X ++ [(t, k)]) a b ∨ JoinEdge (X ++ [(t, k)]) a b →
          b ≠ ⟨t, (X.ofThread t).length⟩ →
          X.ProgramOrder a b ∨ X.SpawnEdge a b ∨ X.JoinEdge a b := by
        intro a b hedge hb
        have ha := hlast hedge
        rcases hedge with ⟨hpid, hlt, hevent⟩ | ⟨hspawn, hevent⟩ | ⟨hevent, hjoin⟩
        · exact .inl ⟨hpid, hlt, (isEvent_concat.mp hevent).resolve_right hb⟩
        · exact .inr (.inl ⟨(at_concat.mp hspawn).resolve_right fun h => ha h.1,
            (isEvent_concat.mp hevent).resolve_right hb⟩)
        · exact .inr (.inr ⟨(isEvent_concat.mp hevent).resolve_right ha,
            (at_concat.mp hjoin).resolve_right fun h => hb h.1⟩)
      induction hab with
      | single hedge => exact fun hb => .single (hold hedge hb)
      | tail _ hedge ih => exact fun hb => .tail (ih (hlast hedge)) (hold hedge hb)
    intro hbefore
    obtain ⟨f, hedge, _⟩ := Relation.TransGen.head'_iff.mp hbefore
    exact ih e (hchain hbefore (hlast hedge))

end ExecutionPrefix

/-! ## A chain through a join and a spawn -/

theorem Steps.not_at_of_forall {X : Steps} {k : ThreadStep}
    (h : ∀ x ∈ X, x.2 ≠ k) (e : IID) : ¬ X.At e k := by
  intro hat
  have hmem : k ∈ X.ofThread e.pid := List.mem_of_getElem? hat
  unfold ofThread at hmem
  simp only [List.mem_map, List.mem_filter] at hmem
  obtain ⟨x, ⟨hx, _⟩, hk⟩ := hmem
  exact h x hx hk

/-- The main thread spawns a thread, joins it, and spawns a second one. -/
def joinThenSpawn : Steps :=
  [(0, .spawn 1), (1, .other), (0, .join 1), (0, .spawn 2), (2, .other)]

/-- The summaries behind `joinThenSpawn`. -/
def joinThenSpawnSummaries : Container :=
  { spawnSummary := [(0, [(1, 0), (2, 2)])], joinSummary := [(0, [(1, 1)])] }

theorem executionPrefix_joinThenSpawn :
    ExecutionPrefix joinThenSpawn joinThenSpawnSummaries := by
  have h1 := ExecutionPrefix.start.step 0 (.spawn 1) (by decide)
    (not_at_of_forall (by decide)) rfl
  have h2 := h1.step 1 .other (by decide) (not_at_of_forall (by decide)) trivial
  have h3 := h2.step 0 (.join 1) (by decide) (not_at_of_forall (by decide))
    ⟨by decide, by decide⟩
  have h4 := h3.step 0 (.spawn 2) (by decide) (not_at_of_forall (by decide)) rfl
  exact h4.step 2 .other (by decide) (not_at_of_forall (by decide)) trivial

/-- The summaries do not order the step of the joined thread before the step
of the thread that is spawned behind the join. -/
theorem not_ordered_iff_before :
    ¬ ∀ X c, ExecutionPrefix X c → ∀ e1 e2, X.IsEvent e1 → X.IsEvent e2 →
      e1.pid ≠ e2.pid →
      ((c.orderedByJoin e1 e2 ∨ c.orderedBySpawn e1 e2) ↔ X.Before e1 e2) := by
  intro h
  have hiff := h _ _ executionPrefix_joinThenSpawn ⟨1, 0⟩ ⟨2, 0⟩ (by decide)
    (by decide) (by decide)
  have hjoin : joinThenSpawn.JoinEdge ⟨1, 0⟩ ⟨0, 1⟩ := ⟨by decide, rfl⟩
  have hprogram : joinThenSpawn.ProgramOrder ⟨0, 1⟩ ⟨0, 2⟩ :=
    ⟨rfl, by decide, by decide⟩
  have hspawn : joinThenSpawn.SpawnEdge ⟨0, 2⟩ ⟨2, 0⟩ := ⟨rfl, by decide⟩
  have hbefore : joinThenSpawn.Before ⟨1, 0⟩ ⟨2, 0⟩ :=
    .tail (.tail (.single (.inr (.inr hjoin))) (.inl hprogram))
      (.inr (.inl hspawn))
  exact absurd (hiff.mpr hbefore) (by decide)

/-- The spawn of the first thread and its step are ordered by one kind of
edge. -/
theorem ordered_iff_before_iff_joinThenSpawn :
    ((joinThenSpawnSummaries.orderedByJoin ⟨0, 0⟩ ⟨1, 0⟩ ∨
        joinThenSpawnSummaries.orderedBySpawn ⟨0, 0⟩ ⟨1, 0⟩) ↔
      joinThenSpawn.Before ⟨0, 0⟩ ⟨1, 0⟩) ↔
    ¬ joinThenSpawn.OnlyMixed ⟨0, 0⟩ ⟨1, 0⟩ :=
  executionPrefix_joinThenSpawn.ordered_iff_before_iff (by decide) (by decide)
    (by decide)

end ViEqui
