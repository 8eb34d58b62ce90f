import Mathlib.Logic.Equiv.Basic
import ViEqui.Gen.VectorInvariant

/-!
# Vectors refine lists

`Represents` relates a family of vectors to the lists that it stands for.
There is a lemma for each operation, `simulates` puts them together, and the
main result is about every run.
-/

namespace ViEqui.Gen

variable {T : Type} {limbSize : Nat}

namespace Snapshots

theorem entry_lt {A : Snapshots T} {i : Nat} {s : Snapshot T}
    (h : A.entry i = some s) : i < A.entries.length := by
  by_cases hi : i < A.entries.length
  · exact hi
  · rw [entry, List.getElem?_eq_none (Nat.le_of_not_lt hi)] at h
    cases h

theorem entry_set {A : Snapshots T} {i : Nat} (hi : i < A.entries.length)
    (n : Nat) (x : Option (Snapshot T)) (j : Nat) :
    entry ⟨A.entries.set i x, n⟩ j = if j = i then x else A.entry j := by
  show ((A.entries.set i x)[j]?).join = _
  by_cases heq : j = i
  · rw [if_pos heq, heq, List.getElem?_set_self hi]
    rfl
  · rw [if_neg heq, List.getElem?_set_ne (Ne.symm heq)]
    rfl

theorem entry_extend (A : Snapshots T) (j : Nat) : A.extend.entry j = A.entry j := by
  show ((A.entries ++ [none])[j]?).join = (A.entries[j]?).join
  by_cases hlt : j < A.entries.length
  · rw [List.getElem?_append_left hlt]
  · rw [List.getElem?_append_right (Nat.le_of_not_lt hlt),
      List.getElem?_eq_none (Nat.le_of_not_lt hlt)]
    cases j - A.entries.length <;> rfl

theorem hasCopy_eq_true_iff {A : Snapshots T} {s : Snapshot T} :
    A.hasCopy s = true ↔
      ∃ j e, A.entry j = some e ∧ e.source = some s.id := by
  rw [hasCopy, List.any_eq_true]
  constructor
  · intro h
    obtain ⟨x, hx, hany⟩ := h
    cases x with
    | none => cases hany
    | some e =>
      obtain ⟨j, hj, hget⟩ := List.mem_iff_getElem.mp hx
      rw [isCopyOf, Option.any_some, beq_iff_eq] at hany
      refine ⟨j, e, ?_, hany⟩
      rw [entry, List.getElem?_eq_getElem hj, hget]
      rfl
  · intro h
    obtain ⟨j, e, hj, hsource⟩ := h
    rw [entry, Option.join_eq_some_iff] at hj
    refine ⟨some e, List.mem_of_getElem? hj, ?_⟩
    rw [isCopyOf, Option.any_some, hsource]
    exact beq_self_eq_true _

theorem writable_eq_some {A : Snapshots T} {i : Nat} {s : Snapshot T}
    (h : A.writable i = some s) : A.entry i = some s ∧ A.hasCopy s = false := by
  rw [writable, Option.bind_eq_bind, Option.bind_eq_some_iff] at h
  obtain ⟨e, he, h⟩ := h
  by_cases hcopy : A.hasCopy e = false
  · rw [guard, if_pos hcopy] at h
    cases h
    exact ⟨he, hcopy⟩
  · rw [guard, if_neg hcopy] at h
    cases h

theorem destroyAt_eq_some {A A' : Snapshots T} {i : Nat}
    (h : A.destroyAt i = some A') : ∃ s, A.entry i = some s ∧
      A.hasCopy s = false ∧ A' = { A with entries := A.entries.set i none } := by
  rw [destroyAt, Option.bind_eq_bind, Option.bind_eq_some_iff] at h
  obtain ⟨s, hs, h⟩ := h
  by_cases hcopy : A.hasCopy s = false
  · rw [guard, if_pos hcopy] at h
    cases h
    exact ⟨s, hs, hcopy, rfl⟩
  · rw [guard, if_neg hcopy] at h
    cases h

end Snapshots

namespace Vector

theorem Holds.agree {m m' : Memory T} {v : Vector} {items : List T}
    (hpos : 0 < limbSize) (h : v.Holds limbSize m items)
    (hagree : v.Agree limbSize m m') : v.Holds limbSize m' items where
  size := h.size
  item := by
    intro ix hix
    rw [hagree.deref hpos hix]
    exact h.item ix hix

/-- A vector with the size, the root and the limbs of another one. -/
theorem Holds.of_start {m m' : Memory T} {v v' : Vector} {items : List T}
    (h : v.Holds limbSize m items) (hsize : v'.size = v.size)
    (hstart : v'.start = v.start) (hroots : m'.roots = m.roots)
    (hlimbs : m'.limbs = m.limbs) : v'.Holds limbSize m' items where
  size := hsize.trans h.size
  item := by
    intro ix hix
    rw [hsize] at hix
    rw [← h.item ix hix]
    unfold deref limbAt Vector.root Memory.slot
    rw [hstart, hroots, hlimbs]

theorem query_spec {m : Memory T} {v : Vector} {s : Snapshot T}
    {answer : Answer T} (hpos : 0 < limbSize)
    (h : v.Holds limbSize m s.items) {q : Query T}
    (hq : s.query q = some answer) : v.query limbSize m q = some answer := by
  rw [← hq]
  cases q with
  | get ix => exact congrArg (Option.map Answer.item) (get_spec h ix)
  | back =>
    show (v.back limbSize m).map Answer.item = s.items.getLast?.map Answer.item
    rw [back, get_spec h, h.size, List.getLast?_eq_getElem?]
  | atIndex ix =>
    simp only [Vector.query, Snapshot.query, atIndex_spec h]
    cases s.items[ix]? <;> rfl
  | size => exact congrArg (fun n => some (Answer.count n)) h.size
  | forEach => exact congrArg (Option.map Answer.items) (forEach_spec hpos h)
  | allOf p => exact congrArg (Option.map Answer.holds) (allOf_spec hpos h p)

end Vector

namespace Family

/-- The vector stands for the list. -/
structure Shows (limbSize : Nat) (m : Memory T) (v : Vector) (s : Snapshot T) :
    Prop where
  holds : v.Holds limbSize m s.items
  id : v.debugRefcount = s.id
  source : v.debugParent = s.source

structure Represents (limbSize : Nat) (F : Family T) (A : Snapshots T) :
    Prop where
  inv : F.Inv limbSize
  length : F.vectors.length = A.entries.length
  next : F.memory.counts.next = A.nextId
  live : ∀ i s, A.entry i = some s →
    ∃ v, F.vector i = some v ∧ Shows limbSize F.memory v s
  dead : ∀ i, A.entry i = none → F.vector i = none

theorem represents_empty : Represents limbSize ({} : Family T) {} where
  inv := by
    have hdead : ∀ v, ¬ ({} : Family T).Live v := by
      intro v h
      obtain ⟨i, hi⟩ := h
      cases hi
    constructor
    · exact fun v h => absurd h (hdead v)
    · exact fun v h => absurd h (hdead v)
    · exact fun v h => absurd h (hdead v)
    · exact fun i j v w h => absurd ⟨i, h⟩ (hdead v)
    · exact fun v h => absurd h (hdead v)
    · exact fun v w r h => absurd h (hdead v)
    · exact fun v w j k a h => absurd h (hdead v)
  length := rfl
  next := rfl
  live := by
    intro i s h
    cases h
  dead := fun _ _ => rfl

namespace Represents

variable {F : Family T} {A : Snapshots T}

theorem entry_of_vector (h : Represents limbSize F A) {i : Nat} {v : Vector}
    (hi : F.vector i = some v) :
    ∃ s, A.entry i = some s ∧ Shows limbSize F.memory v s := by
  cases hs : A.entry i with
  | none =>
    rw [h.dead i hs] at hi
    cases hi
  | some s =>
    obtain ⟨w, hw, hshows⟩ := h.live i s hs
    rw [hi] at hw
    cases hw
    exact ⟨s, rfl, hshows⟩

/-- The counters of the code know the copies. -/
theorem not_hasCopy (h : Represents limbSize F A) {v : Vector} {s : Snapshot T}
    (hshows : Shows limbSize F.memory v s) (hcopy : A.hasCopy s = false) :
    ¬ F.HasCopy v := by
  intro hlive
  obtain ⟨w, ⟨j, hj⟩, hparent⟩ := hlive
  obtain ⟨e, he, hshowsE⟩ := h.entry_of_vector hj
  have htrue : A.hasCopy s = true := by
    rw [Snapshots.hasCopy_eq_true_iff]
    exact ⟨j, e, he, by rw [← hshowsE.source, hparent, hshows.id]⟩
  rw [hcopy] at htrue
  cases htrue

/-- The counter of a vector without copies is zero. -/
theorem count_eq_zero (h : Represents limbSize F A) {i : Nat} {v : Vector}
    (hi : F.vector i = some v) (hcopy : ¬ F.HasCopy v) :
    F.memory.counts.read v.debugRefcount = some 0 := by
  rw [h.inv.counted v ⟨i, hi⟩, copies_eq_zero_iff.mpr hcopy]

theorem extend (h : Represents limbSize F A) :
    Represents limbSize F.extend A.extend ∧
      A.entries.length < A.extend.entries.length ∧
      A.extend.entry A.entries.length = none := by
  have hvector : ∀ j, F.extend.vector j = F.vector j := by
    intro j
    show ((F.vectors ++ [none])[j]?).join = (F.vectors[j]?).join
    by_cases hlt : j < F.vectors.length
    · rw [List.getElem?_append_left hlt]
    · rw [List.getElem?_append_right (Nat.le_of_not_lt hlt),
        List.getElem?_eq_none (Nat.le_of_not_lt hlt)]
      cases j - F.vectors.length <;> rfl
  refine ⟨?_, ?_, ?_⟩
  · constructor
    · apply h.inv.of_places F.extend id rfl Function.bijective_id hvector
      intro count
      show (F.vectors ++ [none]).countP _ = F.vectors.countP _
      rw [List.countP_append]
      rfl
    · show (F.vectors ++ [none]).length = (A.entries ++ [none]).length
      rw [List.length_append, List.length_append, h.length]
      rfl
    · exact h.next
    · intro i s hs
      rw [Snapshots.entry_extend] at hs
      rw [hvector]
      exact h.live i s hs
    · intro i hs
      rw [Snapshots.entry_extend] at hs
      rw [hvector]
      exact h.dead i hs
  · show _ < (A.entries ++ [none]).length
    rw [List.length_append]
    exact Nat.lt_succ_self _
  · rw [Snapshots.entry_extend, Snapshots.entry,
      List.getElem?_eq_none (Nat.le_refl _)]
    rfl

/-- A change of one vector. -/
theorem put (hpos : 0 < limbSize) (h : Represents limbSize F A) {i : Nat}
    {v : Vector} {s : Snapshot T} (hi : F.vector i = some v)
    (hs : A.entry i = some s) (hshows : Shows limbSize F.memory v s)
    (hcopy : ¬ F.HasCopy v) {m' : Memory T} {v' : Vector} {items : List T}
    (hrewrites : Vector.Rewrites limbSize F.memory v m' v')
    (hshape : v'.Shape limbSize m') (hsize : 0 < v'.size)
    (hholds : v'.Holds limbSize m' items) :
    Represents limbSize (F.put i m' v') (A.put i { s with items := items }) where
  inv := h.inv.rewrite hi hcopy hrewrites hshape hsize
  length := by
    show (F.vectors.set i _).length = (A.entries.set i _).length
    rw [List.length_set, List.length_set, h.length]
  next := by
    show m'.counts.next = A.nextId
    rw [hrewrites.counts, h.next]
  live := by
    intro j e he
    rw [Snapshots.put, Snapshots.entry_set (Snapshots.entry_lt hs)] at he
    rw [Family.put, vector_set (vector_lt hi)]
    by_cases hji : j = i
    · rw [if_pos hji] at he ⊢
      cases he
      exact ⟨v', rfl, hholds, hrewrites.debugRefcount.trans hshows.id,
        hrewrites.debugParent.trans hshows.source⟩
    · rw [if_neg hji] at he ⊢
      obtain ⟨w, hw, hshowsW⟩ := h.live j e he
      refine ⟨w, hw, hshowsW.holds.agree hpos ?_, hshowsW.id, hshowsW.source⟩
      exact h.inv.agree ⟨i, hi⟩ hcopy ⟨j, hw⟩ (h.inv.ne_of_ne hi hw hji)
        hrewrites.roots hrewrites.limbs
  dead := by
    intro j he
    rw [Snapshots.put, Snapshots.entry_set (Snapshots.entry_lt hs)] at he
    rw [Family.put, vector_set (vector_lt hi)]
    by_cases hji : j = i
    · rw [if_pos hji] at he
      cases he
    · rw [if_neg hji] at he ⊢
      exact h.dead j he

/-- A new vector that shares the root of another one, or has none. -/
theorem add (h : Represents limbSize F A) {j : Nat} (hj : j < A.entries.length)
    (m' : Memory T) (v : Vector) {s : Snapshot T}
    (hroots : m'.roots = F.memory.roots) (hlimbs : m'.limbs = F.memory.limbs)
    (hinv : (F.put j m' v).Inv limbSize)
    (hnext : m'.counts.next = A.nextId + 1)
    (hshows : Shows limbSize m' v s) :
    Represents limbSize (F.put j m' v)
      { A.put j s with nextId := A.nextId + 1 } where
  inv := hinv
  length := by
    show (F.vectors.set j _).length = (A.entries.set j _).length
    rw [List.length_set, List.length_set, h.length]
  next := hnext
  live := by
    intro i e he
    rw [Snapshots.put, Snapshots.entry_set hj] at he
    rw [Family.put, vector_set (h.length ▸ hj)]
    by_cases hij : i = j
    · rw [if_pos hij] at he ⊢
      cases he
      exact ⟨v, rfl, hshows⟩
    · rw [if_neg hij] at he ⊢
      obtain ⟨w, hw, hshowsW⟩ := h.live i e he
      exact ⟨w, hw, hshowsW.holds.of_start rfl rfl hroots hlimbs, hshowsW.id,
        hshowsW.source⟩
  dead := by
    intro i he
    rw [Snapshots.put, Snapshots.entry_set hj] at he
    rw [Family.put, vector_set (h.length ▸ hj)]
    by_cases hij : i = j
    · rw [if_pos hij] at he
      cases he
    · rw [if_neg hij] at he ⊢
      exact h.dead i he

/-- A vector that was just constructed, or is left of one that moved. -/
def emptyVector (count : Nat) : Vector :=
  { debugParent := none, debugRefcount := count, size := 0
    start := none, last := none }

theorem limbCount_empty (count : Nat) :
    (emptyVector count).limbCount limbSize = 0 := by
  show (0 + limbSize - 1) / limbSize = 0
  rw [Nat.zero_add, Nat.div_eq_zero_iff]
  omega

theorem holds_empty (m : Memory T) (count : Nat) :
    (emptyVector count).Holds limbSize m [] where
  size := rfl
  item := by
    intro ix hix
    exact absurd hix (Nat.not_lt_zero ix)

theorem shape_empty (m : Memory T) (count : Nat) :
    (emptyVector count).Shape limbSize m where
  null := fun _ => ⟨rfl, rfl⟩
  read := by
    intro start h
    cases h
  limb := by
    rw [limbCount_empty]
    exact fun k hk => absurd hk (Nat.not_lt_zero k)
  distinct := by
    rw [limbCount_empty]
    exact fun k hk => absurd hk (Nat.not_lt_zero k)
  ownRoot := by
    intro capacity h
    cases h

theorem inv_constructAt (h : F.Inv limbSize) {j : Nat}
    (hj : j < F.vectors.length) (hdead : F.vector j = none) :
    (F.constructAt j).Inv limbSize := by
  have hlinked : F.Linked limbSize (emptyVector F.memory.counts.next) := by
    constructor
    · intro _ hstart
      exact absurd rfl hstart
    · intro count hparent
      cases hparent
  apply h.add hj hdead { F.memory with counts := F.memory.counts.alloc 0 }
    (emptyVector F.memory.counts.next) rfl rfl rfl rfl (shape_empty _ _)
    (fun hstart => absurd rfl hstart) hlinked (Heap.read_alloc_next _ _)
  intro count n hread
  have hparent : (emptyVector F.memory.counts.next).debugParent ≠ some count :=
    (Option.some_ne_none count).symm
  rw [if_neg hparent]
  exact Heap.read_alloc_of_read 0 hread

theorem constructAt (h : Represents limbSize F A) {j : Nat}
    (hj : j < A.entries.length) (hdead : A.entry j = none) :
    Represents limbSize (F.constructAt j) (A.constructAt j) := by
  have hinv := inv_constructAt h.inv (h.length ▸ hj) (h.dead j hdead)
  refine h.add hj _ _ rfl rfl hinv ?_ ⟨holds_empty _ _, h.next, rfl⟩
  show (F.memory.counts.alloc 0).next = _
  rw [Heap.next_alloc, h.next]

/-- The memory after a copy of a vector with elements. -/
def copyMemory (F : Family T) (other : Vector) : Memory T :=
  { F.memory with
    counts := (F.memory.counts.alloc 0).write other.debugRefcount
      (F.copies other.debugRefcount + 1) }

/-- The copy. -/
def copyVector (F : Family T) (other : Vector) : Vector :=
  { debugParent := some other.debugRefcount
    debugRefcount := F.memory.counts.next, size := other.size
    start := other.start, last := none }

theorem inv_copy (h : F.Inv limbSize) {j : Nat} (hj : j < F.vectors.length)
    (hdead : F.vector j = none) {other : Vector} (hother : F.Live other)
    (hstart : other.start ≠ none) :
    (F.put j (copyMemory F other) (copyVector F other)).Inv limbSize := by
  have hread := h.counted other hother
  have hlt := Heap.lt_next hread
  have hread₀ := Heap.read_alloc_of_read 0 hread
  have hshape := h.shape other hother
  apply h.add hj hdead (copyMemory F other) (copyVector F other) rfl rfl rfl rfl
  · constructor
    · exact fun hnull => absurd hnull hstart
    · exact hshape.read
    · exact hshape.limb
    · exact hshape.distinct
    · intro capacity hlast
      cases hlast
  · exact h.pos other hother
  · constructor
    · intro hparent
      cases hparent
    · intro count hparent
      cases hparent
      exact ⟨other, hother, rfl, hlt, fun _ => rfl, fun k hk _ => ⟨hk, rfl⟩⟩
  · show ((F.memory.counts.alloc 0).write _ _).read F.memory.counts.next = _
    rw [Heap.read_write_ne _ _ (Nat.ne_of_gt hlt), Heap.read_alloc_next]
  · intro count n hcount
    show ((F.memory.counts.alloc 0).write _ _).read count =
      some (n + if some other.debugRefcount = some count then 1 else 0)
    by_cases heq : other.debugRefcount = count
    · rw [if_pos (congrArg some heq), ← heq, Heap.read_write_self _ hread₀]
      rw [← heq, hread] at hcount
      rw [Option.some.inj hcount]
    · rw [if_neg (fun h => heq (Option.some.inj h)),
        Heap.read_write_ne _ _ (fun h => heq h.symm)]
      exact Heap.read_alloc_of_read 0 hcount

theorem copyAt (h : Represents limbSize F A) {i j : Nat} {A' : Snapshots T}
    (hj : j < A.entries.length) (hdead : A.entry j = none)
    (hcopy : A.copyAt j i = some A') :
    ∃ F', F.copyAt j i = some F' ∧ Represents limbSize F' A' := by
  rw [Snapshots.copyAt, Option.bind_eq_bind, Option.bind_eq_some_iff] at hcopy
  obtain ⟨s, hs, hcopy⟩ := hcopy
  cases hcopy
  obtain ⟨other, hi, hshows⟩ := h.live i s hs
  have hshape := h.inv.shape other ⟨i, hi⟩
  have hsize := hshows.holds.size
  unfold Family.copyAt
  rw [hi, Option.bind_eq_bind, Option.bind_some]
  cases hstart : other.start with
  | none =>
    -- A copy of the empty vector has no source.
    have hzero := (hshape.null hstart).1
    have hitems : s.items = [] := by
      rw [hzero] at hsize
      exact List.length_eq_zero_iff.mp hsize.symm
    refine ⟨F.constructAt j, ?_, ?_⟩
    · unfold Vector.copy
      rw [hstart, hzero]
      rfl
    · rw [hitems]
      exact h.constructAt hj hdead
  | some start =>
    have hne : other.start ≠ none := by
      rw [hstart]
      exact Option.some_ne_none start
    have hpos := h.inv.pos other ⟨i, hi⟩ hne
    have hitems : s.items.isEmpty = false := by
      rw [List.isEmpty_eq_false_iff]
      intro hnil
      rw [hnil] at hsize
      rw [hsize] at hpos
      exact Nat.lt_irrefl 0 hpos
    have hread := Heap.read_alloc_of_read 0 (h.inv.counted other ⟨i, hi⟩)
    have hinv := inv_copy h.inv (h.length ▸ hj) (h.dead j hdead) ⟨i, hi⟩ hne
    refine ⟨_, ?_, h.add hj (copyMemory F other) (copyVector F other) rfl rfl
      hinv ?_ ⟨?_, h.next, ?_⟩⟩
    · unfold Vector.copy
      simp only [hstart, hread, Option.bind_eq_bind, Option.bind_some,
        Option.pure_def, copyMemory, copyVector]
    · show ((F.memory.counts.alloc 0).write _ _).next = _
      rw [Heap.next_write, Heap.next_alloc, h.next]
    · exact hshows.holds.of_start rfl rfl rfl rfl
    · rw [hitems]
      exact congrArg some hshows.id

/-- The new vector gets the fields of the other one, which is empty then. -/
theorem moveAt (h : Represents limbSize F A) {i j : Nat} {A' : Snapshots T}
    (hj : j < A.entries.length) (hdead : A.entry j = none)
    (hmove : A.moveAt j i = some A') :
    ∃ F', F.moveAt j i = some F' ∧ Represents limbSize F' A' := by
  rw [Snapshots.moveAt, Option.bind_eq_bind, Option.bind_eq_some_iff] at hmove
  obtain ⟨s, hs, hmove⟩ := hmove
  cases hmove
  obtain ⟨v, hi, hshows⟩ := h.live i s hs
  have hij : i ≠ j := by
    intro heq
    rw [heq, hdead] at hs
    cases hs
  have hjF : j < F.vectors.length := h.length ▸ hj
  have hdeadF := h.dead j hdead
  let m' : Memory T := { F.memory with counts := F.memory.counts.alloc 0 }
  let rest := emptyVector F.memory.counts.next
  let G := (F.put i m' rest).put j m' v
  have hjPut : j < (F.put i m' rest).vectors.length := by
    show j < (F.vectors.set i _).length
    rw [List.length_set]
    exact hjF
  have hvector : ∀ k, G.vector k =
      if k = j then some v else if k = i then some rest else F.vector k := by
    intro k
    show vector ⟨m', (F.put i m' rest).vectors.set j (some v)⟩ k = _
    rw [vector_set hjPut, Family.put, vector_set (vector_lt hi)]
  have hmoved : ∀ k, (F.constructAt j).vector k =
      if k = j then some rest else F.vector k :=
    fun k => vector_set hjF m' (some rest) k
  have hentry : ∀ k, ((A.constructAt i).put j s).entry k =
      if k = j then some s
      else if k = i then some { items := [], id := A.nextId, source := none }
      else A.entry k := by
    intro k
    have hlength : j < (A.constructAt i).entries.length := by
      show j < (A.entries.set i _).length
      rw [List.length_set]
      exact hj
    rw [Snapshots.put, Snapshots.entry_set hlength]
    congr 1
    exact Snapshots.entry_set (Snapshots.entry_lt hs) _ _ k
  have hcopies : ∀ count, G.copies count = (F.constructAt j).copies count := by
    intro count
    have h1 := copies_set (vector_lt hi) m' (some rest) count
    have h2 := copies_set hjPut m' (some v) count
    have h3 := copies_set hjF m' (some rest) count
    have hrest : (if (some rest).any (fun v => v.debugParent == some count) = true
      then 1 else 0) = 0 := rfl
    have hnone : (if (none : Option Vector).any
      (fun v => v.debugParent == some count) = true then 1 else 0) = 0 := rfl
    have hjdead : (F.put i m' rest).vector j = none := by
      rw [Family.put, vector_set (vector_lt hi), if_neg (Ne.symm hij)]
      exact hdeadF
    rw [hi, hrest] at h1
    rw [hjdead, hnone] at h2
    rw [hdeadF, hrest, hnone] at h3
    show copies ⟨m', (F.put i m' rest).vectors.set j (some v)⟩ count =
      copies ⟨m', F.vectors.set j (some rest)⟩ count
    have h1' : copies (F.put i m' rest) count + _ = _ := h1
    omega
  have hinv : G.Inv limbSize := by
    apply (inv_constructAt h.inv hjF hdeadF).of_places G (Equiv.swap i j) rfl
      (Equiv.bijective _)
    · intro k
      rw [hvector, hmoved]
      by_cases hkj : k = j
      · rw [if_pos hkj, hkj, Equiv.swap_apply_right, if_neg hij, hi]
      · by_cases hki : k = i
        · rw [if_neg hkj, if_pos hki, hki, Equiv.swap_apply_left, if_pos rfl]
        · rw [if_neg hkj, if_neg hki, Equiv.swap_apply_of_ne_of_ne hki hkj,
            if_neg hkj]
    · exact hcopies
  refine ⟨G, ?_, ?_⟩
  · unfold Family.moveAt
    rw [hi]
    rfl
  · constructor
    · exact hinv
    · show ((F.vectors.set i _).set j _).length = ((A.entries.set i _).set j _).length
      rw [List.length_set, List.length_set, List.length_set, List.length_set,
        h.length]
    · show (F.memory.counts.alloc 0).next = A.nextId + 1
      rw [Heap.next_alloc, h.next]
    · intro k e he
      rw [hentry] at he
      rw [hvector]
      by_cases hkj : k = j
      · rw [if_pos hkj] at he ⊢
        cases he
        exact ⟨v, rfl, hshows.holds.of_start rfl rfl rfl rfl, hshows.id,
          hshows.source⟩
      · rw [if_neg hkj] at he ⊢
        by_cases hki : k = i
        · rw [if_pos hki] at he ⊢
          cases he
          exact ⟨rest, rfl, holds_empty m' _, h.next, rfl⟩
        · rw [if_neg hki] at he ⊢
          obtain ⟨w, hw, hshowsW⟩ := h.live k e he
          exact ⟨w, hw, hshowsW.holds.of_start rfl rfl rfl rfl, hshowsW.id,
            hshowsW.source⟩
    · intro k he
      rw [hentry] at he
      rw [hvector]
      by_cases hkj : k = j
      · rw [if_pos hkj] at he
        cases he
      · rw [if_neg hkj] at he ⊢
        by_cases hki : k = i
        · rw [if_pos hki] at he
          cases he
        · rw [if_neg hki] at he ⊢
          exact h.dead k he

/-- `~vector()` of a vector without copies. -/
theorem destroy_spec (hpos : 0 < limbSize) (h : Represents limbSize F A) {i : Nat}
    {v : Vector} {s : Snapshot T} (hi : F.vector i = some v)
    (hshows : Shows limbSize F.memory v s) (hcopy : ¬ F.HasCopy v) :
    ∃ m', v.destroy limbSize F.memory = some m' ∧
      m'.counts.next = F.memory.counts.next ∧
      Inv.Releases limbSize F.memory v m' := by
  have hshape := h.inv.shape v ⟨i, hi⟩
  have hwritable : v.assertWritable F.memory = some () := by
    rw [Vector.assertWritable, h.count_eq_zero hi hcopy]
    rfl
  -- The counter of the source goes down.
  have hparent : ∃ counts, v.releaseParent F.memory =
      some { F.memory with counts := counts } ∧
      counts.next = F.memory.counts.next ∧
      ∀ count n, F.memory.counts.read count = some n →
        counts.read count =
          some (if v.debugParent = some count then n - 1 else n) := by
    unfold Vector.releaseParent
    cases hsource : v.debugParent with
    | none =>
      refine ⟨F.memory.counts, rfl, rfl, ?_⟩
      intro count n hread
      rw [if_neg (Option.some_ne_none count).symm]
      exact hread
    | some parent =>
      obtain ⟨p, hp, hcount, _⟩ := (h.inv.linked v ⟨i, hi⟩).source parent hsource
      have hreadP := h.inv.counted p hp
      rw [hcount] at hreadP
      refine ⟨F.memory.counts.write parent (F.copies parent - 1), ?_,
        Heap.next_write _ _ _, ?_⟩
      · simp only [hreadP, Option.bind_eq_bind, Option.bind_some,
          Option.pure_def]
      · intro count n hread
        by_cases heq : parent = count
        · rw [if_pos (congrArg some heq), ← heq, Heap.read_write_self _ hreadP]
          rw [← heq, hreadP] at hread
          rw [Option.some.inj hread]
        · rw [if_neg (fun h => heq (Option.some.inj h)),
            Heap.read_write_ne _ _ (fun h => heq h.symm)]
          exact hread
  obtain ⟨counts, hrelease, hnext, hcounts⟩ := hparent
  -- What the vector owns is deleted.
  have howned : ∃ m₂, (if v.last ≠ none then
        v.destroyOwned limbSize { F.memory with counts := counts }
      else some { F.memory with counts := counts }) = some m₂ ∧
      m₂.counts = counts ∧
      (∀ r, ¬ v.OwnsRoot r → m₂.roots.read r = F.memory.roots.read r) ∧
      ∀ a, (∀ k, ¬ v.Owns limbSize F.memory k a) →
        m₂.limbs.read a = F.memory.limbs.read a := by
    by_cases hlast : v.last = none
    · rw [if_neg (fun h => h hlast)]
      exact ⟨_, rfl, rfl, fun _ _ => rfl, fun _ _ => rfl⟩
    · have hagree : v.Agree limbSize F.memory { F.memory with counts := counts } :=
        ⟨rfl, fun _ _ _ _ => rfl⟩
      rw [if_pos hlast]
      exact Vector.destroyOwned_spec hpos (hagree.shape hshape)
        (hagree.filled hpos hshows.holds.filled) hlast
  obtain ⟨m₂, hrun, hm₂, hroots, hlimbs⟩ := howned
  refine ⟨{ m₂ with counts := m₂.counts.free v.debugRefcount }, ?_, ?_,
    hroots, hlimbs, ?_⟩
  · unfold Vector.destroy
    simp only [hwritable, hrelease, Option.bind_eq_bind, Option.bind_some,
      Option.pure_def]
    rw [hrun]
    rfl
  · show (m₂.counts.free v.debugRefcount).next = _
    rw [Heap.next_free, hm₂, hnext]
  · intro count n hne hread
    show (m₂.counts.free v.debugRefcount).read count = _
    rw [Heap.read_free_ne _ hne, hm₂]
    exact hcounts count n hread

theorem destroyAt (hpos : 0 < limbSize) (h : Represents limbSize F A) {i : Nat}
    {A' : Snapshots T} (hdestroy : A.destroyAt i = some A') :
    ∃ F', F.destroyAt limbSize i = some F' ∧ Represents limbSize F' A' ∧
      i < A'.entries.length ∧ A'.entry i = none := by
  obtain ⟨s, hs, hcopyA, hA'⟩ := Snapshots.destroyAt_eq_some hdestroy
  cases hA'
  obtain ⟨v, hi, hshows⟩ := h.live i s hs
  have hcopy := h.not_hasCopy hshows hcopyA
  obtain ⟨m', hrun, hnext, hreleases⟩ := h.destroy_spec hpos hi hshows hcopy
  refine ⟨⟨m', F.vectors.set i none⟩, ?_, ?_, ?_, ?_⟩
  · unfold Family.destroyAt
    rw [hi, Option.bind_eq_bind, Option.bind_some, hrun]
    rfl
  · constructor
    · exact h.inv.release hi hcopy hreleases
    · show (F.vectors.set i none).length = (A.entries.set i none).length
      rw [List.length_set, List.length_set, h.length]
    · exact hnext.trans h.next
    · intro j e he
      rw [Snapshots.entry_set (Snapshots.entry_lt hs)] at he
      rw [vector_set (vector_lt hi)]
      by_cases hji : j = i
      · rw [if_pos hji] at he
        cases he
      · rw [if_neg hji] at he ⊢
        obtain ⟨w, hw, hshowsW⟩ := h.live j e he
        refine ⟨w, hw, hshowsW.holds.agree hpos ?_, hshowsW.id, hshowsW.source⟩
        exact h.inv.agree ⟨i, hi⟩ hcopy ⟨j, hw⟩ (h.inv.ne_of_ne hi hw hji)
          (fun r _ => hreleases.roots r) (fun a _ => hreleases.limbs a)
    · intro j he
      rw [Snapshots.entry_set (Snapshots.entry_lt hs)] at he
      rw [vector_set (vector_lt hi)]
      by_cases hji : j = i
      · rw [if_pos hji]
      · rw [if_neg hji] at he ⊢
        exact h.dead j he
  · show i < (A.entries.set i none).length
    rw [List.length_set]
    exact Snapshots.entry_lt hs
  · rw [Snapshots.entry_set (Snapshots.entry_lt hs), if_pos rfl]

/-- A list that may be changed belongs to a vector without copies. -/
theorem writable (h : Represents limbSize F A) {i : Nat} {s : Snapshot T}
    (hs : A.writable i = some s) : ∃ v, A.entry i = some s ∧
      F.vector i = some v ∧ Shows limbSize F.memory v s ∧ ¬ F.HasCopy v := by
  obtain ⟨hentry, hcopy⟩ := Snapshots.writable_eq_some hs
  obtain ⟨v, hi, hshows⟩ := h.live i s hentry
  exact ⟨v, hentry, hi, hshows, h.not_hasCopy hshows hcopy⟩

theorem emplaceBack (hpos : 0 < limbSize) (h : Represents limbSize F A)
    {i : Nat} {s : Snapshot T} (hs : A.writable i = some s) (x : T) :
    ∃ v m' v' a k, F.vector i = some v ∧
      v.emplaceBack limbSize F.memory x = some (m', v', a, k) ∧
      m'.slot a k = some x ∧
      Represents limbSize (F.put i m' v')
        (A.put i { s with items := s.items ++ [x] }) := by
  obtain ⟨v, hentry, hi, hshows, hcopy⟩ := h.writable hs
  obtain ⟨m', v', a, k, hrun, hslot, hshape, hrewrites, hsize, hholds⟩ :=
    Vector.emplaceBack_spec hpos (h.inv.shape v ⟨i, hi⟩) hshows.holds
      (h.count_eq_zero hi hcopy) x
  exact ⟨v, m', v', a, k, hi, hrun, hslot,
    h.put hpos hi hentry hshows hcopy hrewrites hshape hsize hholds⟩

theorem mutRef (hpos : 0 < limbSize) (h : Represents limbSize F A) {i ix : Nat}
    {s : Snapshot T} {y : T} (hs : A.writable i = some s)
    (hitem : s.items[ix]? = some y) (x : T) :
    ∃ v m' v' a k m'', F.vector i = some v ∧
      v.mutRef limbSize F.memory ix = some (m', v', a, k) ∧
      m'.slot a k = some y ∧ m'.assign a k x = some m'' ∧
      Represents limbSize (F.put i m'' v')
        (A.put i { s with items := s.items.set ix x }) := by
  obtain ⟨v, hentry, hi, hshows, hcopy⟩ := h.writable hs
  obtain ⟨m', v', a, k, hrun, hslot, hassign⟩ :=
    Vector.mutRef_spec hpos (h.inv.shape v ⟨i, hi⟩) hshows.holds
      (h.count_eq_zero hi hcopy) hitem
  obtain ⟨m'', hrun', hshape, hrewrites, hsize, hholds⟩ := hassign x
  exact ⟨v, m', v', a, k, m'', hi, hrun, hslot, hrun',
    h.put hpos hi hentry hshows hcopy hrewrites hshape hsize hholds⟩

end Represents

/-- Every operation on the lists can be followed by the code. -/
theorem simulates (hpos : 0 < limbSize) :
    Simulation.Simulates (step limbSize) (Snapshots.step (T := T))
      (Represents limbSize) := by
  intro F A op A' answer h hstep
  cases op with
  | construct =>
    cases hstep
    obtain ⟨hext, hlt, hdead⟩ := h.extend
    rw [← h.length] at hlt hdead
    rw [← h.length]
    exact ⟨_, rfl, hext.constructAt hlt hdead⟩
  | pushBack i x =>
    rw [Snapshots.step, Option.bind_eq_bind, Option.bind_eq_some_iff] at hstep
    obtain ⟨s, hs, heq⟩ := hstep
    cases heq
    obtain ⟨v, m', v', a, k, hi, hrun, _, hrep⟩ := h.emplaceBack hpos hs x
    refine ⟨_, ?_, hrep⟩
    simp only [step, hi, Vector.pushBack_eq, hrun, Option.map_some,
      Option.bind_eq_bind, Option.bind_some, Option.pure_def]
  | emplaceBack i x =>
    rw [Snapshots.step, Option.bind_eq_bind, Option.bind_eq_some_iff] at hstep
    obtain ⟨s, hs, heq⟩ := hstep
    cases heq
    obtain ⟨v, m', v', a, k, hi, hrun, hslot, hrep⟩ := h.emplaceBack hpos hs x
    refine ⟨_, ?_, hrep⟩
    simp only [step, hi, hrun, hslot, Option.bind_eq_bind, Option.bind_some,
      Option.pure_def]
  | mutRef i ix f =>
    rw [Snapshots.step, Option.bind_eq_bind, Option.bind_eq_some_iff] at hstep
    obtain ⟨s, hs, hstep⟩ := hstep
    rw [Option.bind_eq_bind, Option.bind_eq_some_iff] at hstep
    obtain ⟨y, hy, heq⟩ := hstep
    cases heq
    obtain ⟨v, m', v', a, k, m'', hi, hrun, hslot, hassign, hrep⟩ :=
      h.mutRef hpos hs hy (f y)
    refine ⟨_, ?_, hrep⟩
    simp only [step, hi, hrun, hslot, hassign, Option.bind_eq_bind,
      Option.bind_some, Option.pure_def]
  | query i q =>
    rw [Snapshots.step, Option.bind_eq_bind, Option.bind_eq_some_iff] at hstep
    obtain ⟨s, hs, hstep⟩ := hstep
    rw [Option.bind_eq_bind, Option.bind_eq_some_iff] at hstep
    obtain ⟨r, hr, heq⟩ := hstep
    cases heq
    obtain ⟨v, hi, hshows⟩ := h.live i s hs
    refine ⟨F, ?_, h⟩
    simp only [step, hi, Vector.query_spec hpos hshows.holds hr,
      Option.bind_eq_bind, Option.bind_some, Option.pure_def]
  | copy i =>
    rw [Snapshots.step, Option.map_eq_some_iff] at hstep
    obtain ⟨A₁, hcopy, heq⟩ := hstep
    cases heq
    obtain ⟨hext, hlt, hdead⟩ := h.extend
    obtain ⟨F', hrun, hrep⟩ := hext.copyAt hlt hdead hcopy
    refine ⟨F', ?_, hrep⟩
    rw [step, h.length, hrun]
    rfl
  | move i =>
    rw [Snapshots.step, Option.map_eq_some_iff] at hstep
    obtain ⟨A₁, hmove, heq⟩ := hstep
    cases heq
    obtain ⟨hext, hlt, hdead⟩ := h.extend
    obtain ⟨F', hrun, hrep⟩ := hext.moveAt hlt hdead hmove
    refine ⟨F', ?_, hrep⟩
    rw [step, h.length, hrun]
    rfl
  | copyAssign j i =>
    rw [Snapshots.step, Option.bind_eq_bind, Option.bind_eq_some_iff] at hstep
    obtain ⟨A₁, hdestroy, hstep⟩ := hstep
    rw [Option.bind_eq_some_iff] at hstep
    obtain ⟨A₂, hcopy, heq⟩ := hstep
    cases heq
    obtain ⟨F₁, hrun₁, hrep₁, hlt, hdead⟩ := h.destroyAt hpos hdestroy
    obtain ⟨F₂, hrun₂, hrep₂⟩ := hrep₁.copyAt hlt hdead hcopy
    refine ⟨F₂, ?_, hrep₂⟩
    simp only [step, hrun₁, hrun₂, Option.bind_eq_bind, Option.bind_some,
      Option.pure_def]
  | moveAssign j i =>
    rw [Snapshots.step, Option.bind_eq_bind, Option.bind_eq_some_iff] at hstep
    obtain ⟨A₁, hdestroy, hstep⟩ := hstep
    rw [Option.bind_eq_some_iff] at hstep
    obtain ⟨A₂, hmove, heq⟩ := hstep
    cases heq
    obtain ⟨F₁, hrun₁, hrep₁, hlt, hdead⟩ := h.destroyAt hpos hdestroy
    obtain ⟨F₂, hrun₂, hrep₂⟩ := hrep₁.moveAt hlt hdead hmove
    refine ⟨F₂, ?_, hrep₂⟩
    simp only [step, hrun₁, hrun₂, Option.bind_eq_bind, Option.bind_some,
      Option.pure_def]
  | destroy i =>
    rw [Snapshots.step, Option.map_eq_some_iff] at hstep
    obtain ⟨A₁, hdestroy, heq⟩ := hstep
    cases heq
    obtain ⟨F₁, hrun, hrep, _⟩ := h.destroyAt hpos hdestroy
    refine ⟨F₁, ?_, hrep⟩
    rw [step, hrun]
    rfl

/-! ## Snapshots are independent -/

end Family

/-- The vectors that an operation changes. -/
def Op.changes : Op T → List Nat
  | .construct => []
  | .pushBack i _ => [i]
  | .emplaceBack i _ => [i]
  | .mutRef i _ _ => [i]
  | .query _ _ => []
  | .copy _ => []
  | .move i => [i]
  | .copyAssign j _ => [j]
  | .moveAssign j i => [j, i]
  | .destroy i => [i]

namespace Snapshots

theorem entry_put_of_ne {A : Snapshots T} {i j : Nat} {s : Snapshot T}
    (hne : j ≠ i) (n : Nat) :
    entry { A.put i s with nextId := n } j = A.entry j := by
  show ((A.entries.set i (some s))[j]?).join = _
  rw [List.getElem?_set_ne (Ne.symm hne)]
  rfl

theorem entry_copyAt {A A' : Snapshots T} {i j k : Nat}
    (h : A.copyAt j i = some A') (hne : k ≠ j) : A'.entry k = A.entry k := by
  rw [copyAt, Option.bind_eq_bind, Option.bind_eq_some_iff] at h
  obtain ⟨s, _, h⟩ := h
  cases h
  exact entry_put_of_ne hne _

theorem entry_moveAt {A A' : Snapshots T} {i j k : Nat}
    (h : A.moveAt j i = some A') (hj : k ≠ j) (hi : k ≠ i) :
    A'.entry k = A.entry k := by
  rw [moveAt, Option.bind_eq_bind, Option.bind_eq_some_iff] at h
  obtain ⟨s, _, h⟩ := h
  cases h
  exact (entry_put_of_ne hj _).trans (entry_put_of_ne hi _)

theorem entry_destroyAt {A A' : Snapshots T} {i k : Nat}
    (h : A.destroyAt i = some A') (hne : k ≠ i) : A'.entry k = A.entry k := by
  obtain ⟨s, hs, _, hA'⟩ := destroyAt_eq_some h
  cases hA'
  rw [entry_set (entry_lt hs), if_neg hne]

theorem entry_step {A A' : Snapshots T} {op : Op T} {answer : Answer T}
    (h : A.step op = some (A', answer)) {k : Nat} {s : Snapshot T}
    (hk : A.entry k = some s) (hnot : k ∉ op.changes) : A'.entry k = some s := by
  have hlt : k ≠ A.entries.length := Nat.ne_of_lt (entry_lt hk)
  rw [← hk]
  cases op with
  | construct =>
    cases h
    rw [constructAt, entry_put_of_ne hlt, entry_extend]
  | pushBack i x =>
    rw [step, Option.bind_eq_bind, Option.bind_eq_some_iff] at h
    obtain ⟨s, _, h⟩ := h
    cases h
    exact entry_put_of_ne (List.ne_of_not_mem_cons hnot) _
  | emplaceBack i x =>
    rw [step, Option.bind_eq_bind, Option.bind_eq_some_iff] at h
    obtain ⟨s, _, h⟩ := h
    cases h
    exact entry_put_of_ne (List.ne_of_not_mem_cons hnot) _
  | mutRef i ix f =>
    rw [step, Option.bind_eq_bind, Option.bind_eq_some_iff] at h
    obtain ⟨s, _, h⟩ := h
    rw [Option.bind_eq_bind, Option.bind_eq_some_iff] at h
    obtain ⟨y, _, h⟩ := h
    cases h
    exact entry_put_of_ne (List.ne_of_not_mem_cons hnot) _
  | query i q =>
    rw [step, Option.bind_eq_bind, Option.bind_eq_some_iff] at h
    obtain ⟨s, _, h⟩ := h
    rw [Option.bind_eq_bind, Option.bind_eq_some_iff] at h
    obtain ⟨r, _, h⟩ := h
    cases h
    rfl
  | copy i =>
    rw [step, Option.map_eq_some_iff] at h
    obtain ⟨A₁, hcopy, h⟩ := h
    cases h
    rw [entry_copyAt hcopy hlt, entry_extend]
  | move i =>
    rw [step, Option.map_eq_some_iff] at h
    obtain ⟨A₁, hmove, h⟩ := h
    cases h
    rw [entry_moveAt hmove hlt (List.ne_of_not_mem_cons hnot), entry_extend]
  | copyAssign j i =>
    rw [step, Option.bind_eq_bind, Option.bind_eq_some_iff] at h
    obtain ⟨A₁, hdestroy, h⟩ := h
    rw [Option.bind_eq_some_iff] at h
    obtain ⟨A₂, hcopy, h⟩ := h
    cases h
    have hne := List.ne_of_not_mem_cons hnot
    rw [entry_copyAt hcopy hne, entry_destroyAt hdestroy hne]
  | moveAssign j i =>
    rw [step, Option.bind_eq_bind, Option.bind_eq_some_iff] at h
    obtain ⟨A₁, hdestroy, h⟩ := h
    rw [Option.bind_eq_some_iff] at h
    obtain ⟨A₂, hmove, h⟩ := h
    cases h
    have hne := List.ne_of_not_mem_cons hnot
    have hne' := List.ne_of_not_mem_cons (List.not_mem_of_not_mem_cons hnot)
    rw [entry_moveAt hmove hne hne', entry_destroyAt hdestroy hne]
  | destroy i =>
    rw [step, Option.map_eq_some_iff] at h
    obtain ⟨A₁, hdestroy, h⟩ := h
    cases h
    exact entry_destroyAt hdestroy (List.ne_of_not_mem_cons hnot)

end Snapshots

namespace Family

/-- The elements of vector `i`, as `for_each` visits them. -/
def contents (limbSize : Nat) (F : Family T) (i : Nat) : Option (List T) :=
  (F.vector i).bind fun v => v.forEach limbSize F.memory

theorem Represents.contents_eq (hpos : 0 < limbSize) {F : Family T}
    {A : Snapshots T} (h : Represents limbSize F A) (i : Nat) :
    F.contents limbSize i = (A.entry i).map Snapshot.items := by
  unfold contents
  cases hs : A.entry i with
  | none =>
    rw [h.dead i hs]
    rfl
  | some s =>
    obtain ⟨v, hi, hshows⟩ := h.live i s hs
    rw [hi, Option.bind_some, Vector.forEach_spec hpos hshows.holds]
    rfl

/-! ## The bits -/

/-- Limb `k` of `v` is limb `k` of the vector that `v` was copied from. -/
def SharesLimb (limbSize : Nat) (F : Family T) (v : Vector) (k : Nat) : Prop :=
  ∃ p, F.Live p ∧ v.debugParent = some p.debugRefcount ∧
    k < p.limbCount limbSize ∧ p.limbAt F.memory k = v.limbAt F.memory k

theorem Inv.limbIsCow_iff {F : Family T} (h : F.Inv limbSize) {v : Vector}
    (hv : F.Live v) (hlast : v.last ≠ none) {k : Nat}
    (hk : k < v.limbCount limbSize) :
    v.limbIsCow F.memory k = some true ↔ F.SharesLimb limbSize v k := by
  rw [(h.shape v hv).limbIsCow hlast hk, Option.some.injEq]
  constructor
  · intro hcow
    cases hparent : v.debugParent with
    | none =>
      have hstart : v.start ≠ none := by
        intro hnull
        exact hlast ((h.shape v hv).null hnull).2
      have hclear := ((h.linked v hv).noSource hparent hstart).2 k hk
      rw [hcow] at hclear
      cases hclear
    | some count =>
      obtain ⟨p, hp, hcount, _, _, hshared⟩ :=
        (h.linked v hv).source count hparent
      obtain ⟨hkp, hat⟩ := hshared k hk hcow
      exact ⟨p, hp, by rw [hparent, hcount], hkp, hat.symm⟩
  · intro hshares
    obtain ⟨p, hp, hparent, hkp, hat⟩ := hshares
    cases hcow : v.cow F.memory k with
    | true => rfl
    | false =>
      -- The limb is owned by `v`, so an older vector does not read it.
      obtain ⟨a, _, ha, _, _⟩ := (h.shape v hv).limb k hk
      obtain ⟨u, hu, ⟨j, hown⟩, hor⟩ := h.limb_of hp hkp (hat.trans ha)
      have heq := h.limbOwner v u k j a hv hu ⟨hk, ha, hcow⟩ hown
      obtain ⟨_, hq, hcount, hlt, _⟩ := (h.linked v hv).source _ hparent
      rw [← heq] at hor
      cases hor with
      | inl hvp =>
        rw [hvp] at hlt
        exact absurd hlt (Nat.lt_irrefl _)
      | inr hold => exact absurd (Nat.lt_trans hold.2 hlt) (Nat.lt_irrefl _)

/-! ## Every run -/

/-- In every run that keeps to the rules for copies, the vectors answer as the
lists, hold what the lists hold, and mark the limbs that they share.  The next
operation that keeps to the rules has a result too, and changes no vector but
its own. -/
theorem run_refines (hpos : 0 < limbSize) (ops : List (Op T)) (A : Snapshots T)
    (answers : List (Answer T))
    (hrun : Simulation.run Snapshots.step {} ops = some (A, answers)) :
    ∃ F, Simulation.run (step limbSize) {} ops = some (F, answers) ∧
      (∀ i, F.contents limbSize i = (A.entry i).map Snapshot.items) ∧
      (∀ op A' answer, A.step op = some (A', answer) →
        ∃ F', F.step limbSize op = some (F', answer) ∧
          ∀ i, F.vector i ≠ none → i ∉ op.changes →
            F'.contents limbSize i = F.contents limbSize i) ∧
      ∀ v, F.Live v → v.last ≠ none → ∀ k < v.limbCount limbSize,
        (v.limbIsCow F.memory k = some true ↔ F.SharesLimb limbSize v k) := by
  obtain ⟨F, hrunF, h⟩ := (simulates hpos).run represents_empty hrun
  refine ⟨F, hrunF, h.contents_eq hpos, ?_, ?_⟩
  · intro op A' answer hstep
    obtain ⟨F', hstepF, h'⟩ := simulates hpos F A op A' answer h hstep
    refine ⟨F', hstepF, ?_⟩
    intro i hlive hnot
    rw [h'.contents_eq hpos, h.contents_eq hpos]
    obtain ⟨v, hi⟩ := Option.ne_none_iff_exists'.mp hlive
    obtain ⟨s, hs, _⟩ := h.entry_of_vector hi
    rw [Snapshots.entry_step hstep hs hnot, hs]
  · intro v hv hlast k hk
    exact h.inv.limbIsCow_iff hv hlast hk

/-- A copy of two limbs, changed in one of them. -/
def copyThenMut : List (Op Nat) :=
  [.construct, .pushBack 0 1, .emplaceBack 0 2, .copy 0, .mutRef 1 0 (· + 10),
    .query 0 .forEach, .query 1 .forEach]

theorem run_refines_copyThenMut :
    ∃ F, Simulation.run (step 1) {} copyThenMut =
        some (F, [.done, .done, .item 2, .done, .item 1, .items [1, 2],
          .items [11, 2]]) ∧
      F.contents 1 0 = some [1, 2] ∧ F.contents 1 1 = some [11, 2] ∧
      ∀ v, F.Live v → v.last ≠ none → ∀ k < v.limbCount 1,
        (v.limbIsCow F.memory k = some true ↔ F.SharesLimb 1 v k) := by
  obtain ⟨F, hrun, hcontents, _, hbits⟩ :=
    run_refines Nat.one_pos copyThenMut _ _ rfl
  exact ⟨F, hrun, hcontents 0, hcontents 1, hbits⟩

end Family

end ViEqui.Gen
