import ViEqui.Gen.MapInvariant

/-!
# Maps refine finite maps

`Meets` is where the code is a finite map: `mut` is not called with a `Clash`,
and sizes and generations fit their types.  `simulates` puts the lemmas for the
operations together, and the main result is about every run.

The runs with a `Clash` have no result: `mut` shifts a hash by 65 bits.
-/

namespace ViEqui.Gen

open KeyedPairs (Present Distinct)

variable {K T : Type} [BEq K]

/-- The condition on an operation for the code to do what a finite map does. -/
def Meets (hash : K → BitVec 64) (A : FiniteMaps K T) : MapOp K T → Prop
  | .mutRef i k _ => ∀ v, A.entry i = some v →
    ¬ Clash (Map.hashKey hash) k v.contents ∧
    (¬ Present k v.contents → v.contents.length + 1 < 2 ^ 32)
  | .copy i => ∀ v, A.entry i = some v → v.generation + 1 < 2 ^ 31
  | .copyAssign _ i => ∀ v, A.entry i = some v → v.generation + 1 < 2 ^ 31
  | _ => True

/-- Keys with one hash are no clash. -/
theorem not_clash_of_all_eq {h : K → Nat} {k : K} {m : List (K × T)}
    (hall : ∀ p ∈ m, ∀ q ∈ m, h p.1 = h q.1) : ¬ Clash h k m := by
  intro hclash
  obtain ⟨_, p, hp, hpk, q, hq, hqk, _⟩ := hclash
  exact hqk (hpk ▸ hall q hq p hp)

namespace MapFamily

variable {hash : K → BitVec 64} {F : MapFamily K T} {A : FiniteMaps K T}
  {tree : Nat → Tree K T}

namespace Represents

/-- `Clash` does not depend on the order of the pairs. -/
theorem clash_perm {h : K → Nat} {k : K} {m m' : List (K × T)} (hperm : m.Perm m')
    (hclash : Clash h k m) : Clash h k m' := by
  obtain ⟨habsent, p, hp, hpk, q, hq, hqk⟩ := hclash
  refine ⟨?_, p, hperm.subset hp, hpk, q, hperm.subset hq, hqk⟩
  intro hpresent
  obtain ⟨r, hr, hkey⟩ := hpresent
  exact habsent ⟨r, hperm.symm.subset hr, hkey⟩

theorem mutAt [EquivBEq K] [Inhabited T]
    (hcons : ∀ k k', (k == k') = true →
      Map.hashKey hash k = Map.hashKey hash k')
    (h : Represents hash F A tree) {i : Nat} {k : K} {f : T → T}
    {v : Version (List (K × T))} (hv : A.writable i = some v)
    (hmeets : Meets hash A (.mutRef i k f)) :
    ∃ F' tree', F.mutAt hash i k f =
        some (F', (KeyedPairs.lookup k v.contents).getD default) ∧
      Represents hash F' (A.set i (some { v with
        contents := KeyedPairs.update k default f v.contents })) tree' := by
  obtain ⟨hi, hcopies⟩ := Versions.writable_eq_some hv
  obtain ⟨M, hM, hshows⟩ := h.shows i v hi
  obtain ⟨hclash, hsmall⟩ := hmeets v hi
  have hdistinct := hshows.wf.distinct hcons
  have hlookup : KeyedPairs.lookup k (tree v.id).items =
      KeyedPairs.lookup k v.contents := hdistinct.lookup_perm hshows.items k
  obtain ⟨st₁, n, inserted, cells', t', hrun, hvalue, hassign, hstep, hwf, hitems,
    hinserted⟩ := Map.mutAssign_spec (g := M.generation) (k := k) hcons
      hshows.at_root hshows.wf (fun hc => hclash (clash_perm hshows.items hc)) f
      (x := (KeyedPairs.lookup k v.contents).getD default) (by rw [hlookup])
  have hsizes := KeyedPairs.length_update k default f v.contents
  have hsize : Map.sizeAfter M.size inserted =
      (KeyedPairs.update k default f v.contents).length ∧
      (KeyedPairs.update k default f v.contents).length < 2 ^ 32 := by
    have hold := hshows.small
    rw [hsizes, hshows.size, Map.sizeAfter]
    cases hfound : KeyedPairs.lookup k v.contents with
    | none =>
      have hnew := hsmall (KeyedPairs.lookup_eq_none_iff.mp hfound)
      rw [hinserted.mpr (KeyedPairs.lookup_eq_none_iff.mp (hlookup.trans hfound)),
        if_pos rfl, Nat.mod_eq_of_lt hnew]
      exact ⟨rfl, hnew⟩
    | some x =>
      have hnot : ¬ inserted = true := by
        intro htrue
        rw [← hlookup, KeyedPairs.lookup_eq_none_iff.mpr (hinserted.mp htrue)]
          at hfound
        cases hfound
      rw [if_neg hnot]
      exact ⟨rfl, hold⟩
  rw [hshows.generation] at hstep
  refine ⟨_, _, ?_, h.change hi hM hcopies hstep hwf
    (hitems.trans (hdistinct.update_perm hshows.items k default f)) hsize.1
    hsize.2⟩
  simp only [MapFamily.mutAt, hM, h.assertWritable ⟨i, hi⟩ hshows.id hcopies, hrun,
    hvalue, hassign, Option.bind_eq_bind, Option.bind_some, Option.pure_def]

end Represents

/-- The maps follow the finite maps, step by step. -/
theorem simulates [EquivBEq K] [Inhabited T]
    (hcons : ∀ k k', (k == k') = true →
      Map.hashKey hash k = Map.hashKey hash k') :
    Simulation.SimulatesOn (Meets hash) (step (T := T) hash) FiniteMaps.step
      fun F A => ∃ tree, Represents hash F A tree := by
  intro F A op A' answer hrep hmeets hstep
  obtain ⟨tree, h⟩ := hrep
  have hlt : A.entries.length < A.extend.entries.length := by
    show _ < (A.entries ++ [none]).length
    rw [List.length_append]
    exact Nat.lt_succ_self _
  have hdead : A.extend.entry A.entries.length = none := by
    rw [Versions.entry_extend, Versions.entry, Places.get,
      List.getElem?_eq_none (Nat.le_refl _)]
    rfl
  cases op with
  | construct =>
    cases hstep
    obtain ⟨tree', h'⟩ := h.extend.constructAt hlt hdead
    refine ⟨_, ?_, tree', h'⟩
    rw [step, h.length]
  | mutRef i k f =>
    rw [FiniteMaps.step, Option.bind_eq_bind, Option.bind_eq_some_iff] at hstep
    obtain ⟨v, hv, heq⟩ := hstep
    cases heq
    obtain ⟨F', tree', hrun, h'⟩ := h.mutAt hcons hv hmeets
    refine ⟨F', ?_, tree', h'⟩
    rw [step, hrun]
    rfl
  | query i q =>
    rw [FiniteMaps.step, Option.bind_eq_bind, Option.bind_eq_some_iff] at hstep
    obtain ⟨v, hv, heq⟩ := hstep
    cases heq
    obtain ⟨M, hM, hshows⟩ := h.shows i v hv
    refine ⟨F, ?_, tree, h⟩
    simp only [step, hM, hshows.query hcons q, Option.bind_eq_bind,
      Option.bind_some, Option.pure_def]
  | copy i =>
    rw [FiniteMaps.step, Option.map_eq_some_iff] at hstep
    obtain ⟨A₁, hcopy, heq⟩ := hstep
    cases heq
    obtain ⟨F', tree', hrun, h'⟩ := h.extend.copyAt hlt hdead
      (fun v hv => hmeets v (by rw [← Versions.entry_extend]; exact hv)) hcopy
    refine ⟨F', ?_, tree', h'⟩
    rw [step, h.length, hrun]
    rfl
  | move i =>
    rw [FiniteMaps.step, Option.bind_eq_bind, Option.bind_eq_some_iff] at hstep
    obtain ⟨v, hv, hstep⟩ := hstep
    rw [Option.bind_eq_bind, Option.bind_eq_some_iff] at hstep
    obtain ⟨A₁, hswap, heq⟩ := hstep
    cases heq
    obtain ⟨M, hM, _⟩ := h.shows i v hv
    obtain ⟨tree', h'⟩ := h.extend.constructAt hlt hdead
    obtain ⟨F', hrun, h''⟩ := h'.swapAt hswap
    refine ⟨F', ?_, tree', h''⟩
    simp only [step, hM, h.length, hrun, Option.bind_eq_bind, Option.bind_some,
      Option.pure_def]
  | copyAssign j i =>
    rw [FiniteMaps.step, Option.bind_eq_bind, Option.bind_eq_some_iff] at hstep
    obtain ⟨A₁, hdestroy, hstep⟩ := hstep
    rw [Option.bind_eq_some_iff] at hstep
    obtain ⟨A₂, hcopy, heq⟩ := hstep
    cases heq
    obtain ⟨F₁, hrun₁, h₁, hj, hnone⟩ := h.destroyAt hdestroy
    have hgen : ∀ v, A₁.entry i = some v → v.generation + 1 < 2 ^ 31 := by
      intro v hv
      obtain ⟨w, hw, _, heq⟩ := Versions.destroyAt_eq_some hdestroy
      rw [heq, Versions.entry_set (Versions.lt_of_entry hw)] at hv
      split at hv
      · cases hv
      · exact hmeets v hv
    obtain ⟨F₂, tree', hrun₂, h₂⟩ := h₁.copyAt hj hnone hgen hcopy
    refine ⟨F₂, ?_, tree', h₂⟩
    simp only [step, hrun₁, hrun₂, Option.bind_eq_bind, Option.bind_some,
      Option.pure_def]
  | moveAssign j i =>
    rw [FiniteMaps.step, Option.bind_eq_bind, Option.bind_eq_some_iff] at hstep
    obtain ⟨v, hv, hstep⟩ := hstep
    rw [Option.bind_eq_bind, Option.bind_eq_some_iff] at hstep
    obtain ⟨A₁, hswap, heq⟩ := hstep
    cases heq
    obtain ⟨hj, hcopies⟩ := Versions.writable_eq_some hv
    obtain ⟨M, hM, hshows⟩ := h.shows j v hj
    obtain ⟨F', hrun, h'⟩ := h.swapAt hswap
    refine ⟨F', ?_, tree, h'⟩
    simp only [step, hM, h.assertWritable ⟨j, hj⟩ hshows.id hcopies, hrun,
      Option.bind_eq_bind, Option.bind_some, Option.pure_def]
  | swap i j =>
    rw [FiniteMaps.step, Option.map_eq_some_iff] at hstep
    obtain ⟨A₁, hswap, heq⟩ := hstep
    cases heq
    obtain ⟨F', hrun, h'⟩ := h.swapAt hswap
    refine ⟨F', ?_, tree, h'⟩
    rw [step, hrun]
    rfl
  | destroy i =>
    rw [FiniteMaps.step, Option.map_eq_some_iff] at hstep
    obtain ⟨A₁, hdestroy, heq⟩ := hstep
    cases heq
    obtain ⟨F', hrun, h', _⟩ := h.destroyAt hdestroy
    refine ⟨F', ?_, tree, h'⟩
    rw [step, hrun]
    rfl

end MapFamily

/-! ## Snapshots are independent -/

/-- The maps that an operation changes. -/
def MapOp.changes : MapOp K T → List Nat
  | .construct => []
  | .mutRef i _ _ => [i]
  | .query _ _ => []
  | .copy _ => []
  | .move i => [i]
  | .copyAssign j _ => [j]
  | .moveAssign j i => [j, i]
  | .swap i j => [i, j]
  | .destroy i => [i]

namespace FiniteMaps

variable {A A' : FiniteMaps K T} {i j k : Nat}

omit [BEq K] in
theorem entry_addAt_ne (hne : k ≠ j) (contents : List (K × T))
    (source : Option Nat) (generation : Nat) :
    (A.addAt j contents source generation).entry k = A.entry k :=
  Places.get_set_ne hne _

omit [BEq K] in
theorem entry_copyAt (h : A.copyAt List.isEmpty j i = some A') (hne : k ≠ j) :
    A'.entry k = A.entry k := by
  rw [Versions.copyAt, Option.bind_eq_bind, Option.bind_eq_some_iff] at h
  obtain ⟨v, _, h⟩ := h
  cases h
  split <;> exact entry_addAt_ne hne _ _ _

omit [BEq K] in
theorem entry_swapAt (h : A.swapAt i j = some A') (hi : k ≠ i) (hj : k ≠ j) :
    A'.entry k = A.entry k := by
  obtain ⟨v, w, _, _, heq⟩ := Versions.swapAt_eq_some h
  rw [heq]
  exact (Places.get_set_ne hj _).trans (Places.get_set_ne hi _)

omit [BEq K] in
theorem entry_destroyAt (h : A.destroyAt i = some A') (hne : k ≠ i) :
    A'.entry k = A.entry k := by
  obtain ⟨v, _, _, heq⟩ := Versions.destroyAt_eq_some h
  rw [heq]
  exact Places.get_set_ne hne _

theorem entry_step [Inhabited T] {op : MapOp K T} {answer : MapAnswer K T}
    (h : step A op = some (A', answer)) {v : Version (List (K × T))}
    (hk : A.entry k = some v) (hnot : k ∉ op.changes) : A'.entry k = some v := by
  have hlt : k ≠ A.entries.length := Nat.ne_of_lt (Versions.lt_of_entry hk)
  rw [← hk]
  cases op with
  | construct =>
    cases h
    rw [entry_addAt_ne hlt, Versions.entry_extend]
  | mutRef i key f =>
    rw [step, Option.bind_eq_bind, Option.bind_eq_some_iff] at h
    obtain ⟨w, _, h⟩ := h
    cases h
    exact Places.get_set_ne (List.ne_of_not_mem_cons hnot) _
  | query i q =>
    rw [step, Option.bind_eq_bind, Option.bind_eq_some_iff] at h
    obtain ⟨w, _, h⟩ := h
    cases h
    rfl
  | copy i =>
    rw [step, Option.map_eq_some_iff] at h
    obtain ⟨A₁, hcopy, h⟩ := h
    cases h
    rw [entry_copyAt hcopy hlt, Versions.entry_extend]
  | move i =>
    rw [step, Option.bind_eq_bind, Option.bind_eq_some_iff] at h
    obtain ⟨w, _, h⟩ := h
    rw [Option.bind_eq_bind, Option.bind_eq_some_iff] at h
    obtain ⟨A₁, hswap, h⟩ := h
    cases h
    rw [entry_swapAt hswap hlt (List.ne_of_not_mem_cons hnot), entry_addAt_ne hlt,
      Versions.entry_extend]
  | copyAssign j i =>
    rw [step, Option.bind_eq_bind, Option.bind_eq_some_iff] at h
    obtain ⟨A₁, hdestroy, h⟩ := h
    rw [Option.bind_eq_some_iff] at h
    obtain ⟨A₂, hcopy, h⟩ := h
    cases h
    have hne := List.ne_of_not_mem_cons hnot
    rw [entry_copyAt hcopy hne, entry_destroyAt hdestroy hne]
  | moveAssign j i =>
    rw [step, Option.bind_eq_bind, Option.bind_eq_some_iff] at h
    obtain ⟨w, _, h⟩ := h
    rw [Option.bind_eq_bind, Option.bind_eq_some_iff] at h
    obtain ⟨A₁, hswap, h⟩ := h
    cases h
    exact entry_swapAt hswap (List.ne_of_not_mem_cons hnot)
      (List.ne_of_not_mem_cons (List.not_mem_of_not_mem_cons hnot))
  | swap i j =>
    rw [step, Option.map_eq_some_iff] at h
    obtain ⟨A₁, hswap, h⟩ := h
    cases h
    exact entry_swapAt hswap (List.ne_of_not_mem_cons hnot)
      (List.ne_of_not_mem_cons (List.not_mem_of_not_mem_cons hnot))
  | destroy i =>
    rw [step, Option.map_eq_some_iff] at h
    obtain ⟨A₁, hdestroy, h⟩ := h
    cases h
    exact entry_destroyAt hdestroy (List.ne_of_not_mem_cons hnot)

end FiniteMaps

/-! ## Every run -/

namespace MapFamily

variable [EquivBEq K] [Inhabited T] {hash : K → BitVec 64}

/-- The answer of map `i` to a query. -/
def answer (hash : K → BitVec 64) (F : MapFamily K T) (i : Nat) (q : MapQuery K) :
    Option (MapAnswer K T) :=
  (F.map i).bind fun M => M.query hash F.cells q

theorem Represents.answer_eq (hcons : ∀ k k', (k == k') = true →
      Map.hashKey hash k = Map.hashKey hash k')
    {F : MapFamily K T} {A : FiniteMaps K T} {tree : Nat → Tree K T}
    (h : Represents hash F A tree) (i : Nat) (q : MapQuery K) :
    F.answer hash i q = (A.entry i).map fun v => FiniteMaps.query v.contents q := by
  unfold answer
  cases hv : A.entry i with
  | none =>
    rw [h.dead i hv]
    rfl
  | some v =>
    obtain ⟨M, hM, hshows⟩ := h.shows i v hv
    rw [hM, Option.bind_some, hshows.query hcons]
    rfl

/-- In every run that keeps to the rules for copies and meets the condition, the
maps answer as the finite maps.  The next such operation has a result too, and
changes the answers of no map but its own. -/
theorem run_meets (hcons : ∀ k k', (k == k') = true → hash k = hash k')
    (ops : List (MapOp K T)) (A : FiniteMaps K T) (answers : List (MapAnswer K T))
    (hrun : Simulation.run FiniteMaps.step {} ops = some (A, answers))
    (hmeets : Simulation.Along FiniteMaps.step (Meets hash) {} ops) :
    ∃ F, Simulation.run (step hash) {} ops = some (F, answers) ∧
      (∀ i q, F.answer hash i q =
        (A.entry i).map fun v => FiniteMaps.query v.contents q) ∧
      ∀ op A' result, FiniteMaps.step A op = some (A', result) →
        Meets hash A op →
        ∃ F', F.step hash op = some (F', result) ∧
          ∀ i, F.map i ≠ none → i ∉ op.changes →
            ∀ q, F'.answer hash i q = F.answer hash i q := by
  have hcons' : ∀ k k', (k == k') = true →
      Map.hashKey hash k = Map.hashKey hash k' :=
    fun k k' hk => congrArg BitVec.toNat (hcons k k' hk)
  obtain ⟨F, hrunF, tree, h⟩ := (simulates (T := T) hcons').run
    ⟨fun _ => .chain [], Represents.empty _⟩ hmeets hrun
  refine ⟨F, hrunF, h.answer_eq hcons', ?_⟩
  intro op A' result hstep hmeetsOp
  obtain ⟨F', hstepF, tree', h'⟩ :=
    simulates hcons' F A op A' result ⟨tree, h⟩ hmeetsOp hstep
  refine ⟨F', hstepF, ?_⟩
  intro i hlive hnot q
  obtain ⟨M, hM⟩ := Option.ne_none_iff_exists'.mp hlive
  obtain ⟨v, hv, _⟩ := h.shows_of_map hM
  rw [h'.answer_eq hcons', h.answer_eq hcons', FiniteMaps.entry_step hstep hv hnot,
    hv]

/-- The identity, cut to 64 bits. -/
def lowHash (k : Nat) : BitVec 64 := BitVec.ofNat 64 k

/-- A copy of a map with one key, changed in that key and a new one. -/
def copyThenMutRef : List (MapOp Nat Nat) :=
  [.construct, .mutRef 0 5 (· + 1), .copy 0, .mutRef 1 5 (· + 10),
    .mutRef 1 37 (· + 2), .query 0 (.find 5), .query 1 (.find 5), .query 1 .size]

theorem run_meets_copyThenMutRef :
    ∃ F, Simulation.run (step lowHash) {} copyThenMutRef =
        some (F, [.done, .item 0, .done, .item 1, .item 0, .found (some 1),
          .found (some 11), .count 2]) ∧
      F.answer lowHash 0 (.find 37) = some (.found none) := by
  have hnil : ¬ Clash (Map.hashKey lowHash) 5
      ([] : List (Nat × Nat)) :=
    not_clash_of_all_eq fun p hp => by cases hp
  have hone : ∀ k n : Nat,
      ¬ Clash (Map.hashKey lowHash) k [(5, n)] := by
    intro k n
    apply not_clash_of_all_eq
    intro p hp q hq
    rw [List.mem_singleton.mp hp, List.mem_singleton.mp hq]
  have hcons : ∀ k k' : Nat, (k == k') = true → lowHash k = lowHash k' := by
    intro k k' hk
    rw [beq_iff_eq.mp hk]
  obtain ⟨F, hrun, hanswer, _⟩ := run_meets (K := Nat) (T := Nat) hcons
    copyThenMutRef _ _ rfl (by
      refine Simulation.along_cons trivial rfl ?_
      refine Simulation.along_cons ?_ rfl ?_
      · intro v hv
        cases hv
        exact ⟨hnil, fun _ => by decide⟩
      refine Simulation.along_cons ?_ rfl ?_
      · intro v hv
        cases hv
        decide
      refine Simulation.along_cons ?_ rfl ?_
      · intro v hv
        cases hv
        exact ⟨hone 5 1, fun _ => by decide⟩
      refine Simulation.along_cons ?_ rfl ?_
      · intro v hv
        cases hv
        exact ⟨hone 37 11, fun _ => by decide⟩
      exact Simulation.along_cons trivial rfl (Simulation.along_cons trivial rfl
        (Simulation.along_cons trivial rfl trivial)))
  exact ⟨F, hrun, hanswer 0 (.find 37)⟩

/-! ## A clash -/

/-- The keys 0 and 2 have one hash, and 1 agrees with it in the low 60 bits. -/
def clashHash (k : Nat) : BitVec 64 :=
  if k = 1 then 1#64 + 1#64 <<< 60 else 1#64

def clashRun : List (MapOp Nat Nat) :=
  [.construct, .mutRef 0 0 id, .mutRef 0 1 id, .mutRef 0 2 id]

theorem clashRun_none : Simulation.run (step clashHash) {} clashRun = none := by
  have hnone : (Simulation.run (step clashHash) {} clashRun).isNone = true := by
    decide +kernel
  exact Option.isNone_iff_eq_none.mp hnone

/-- The maps do not follow the finite maps in every run. -/
theorem not_refines :
    ¬ ∀ (hash : Nat → BitVec 64) (ops : List (MapOp Nat Nat))
      (A : FiniteMaps Nat Nat) (answers : List (MapAnswer Nat Nat)),
      Simulation.run FiniteMaps.step {} ops = some (A, answers) →
        ∃ F, Simulation.run (step hash) {} ops = some (F, answers) := by
  intro h
  obtain ⟨F, hrun⟩ := h clashHash clashRun _ _ rfl
  rw [clashRun_none] at hrun
  cases hrun

end MapFamily

end ViEqui.Gen
