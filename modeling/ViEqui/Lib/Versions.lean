import ViEqui.Lib.Places

/-!
# Values with copies

The places of a program hold values, of which some are copies of others.  A
value with copies is not changed and not destroyed (`writable`, `destroyAt`).
A copy of an empty value is a value of its own.

`Wf` is what every state keeps: values have different numbers, and the source
of a copy is there, is older and is of the generation before.
-/

structure Version (α : Type) where
  contents : α
  id : Nat
  source : Option Nat := none
  generation : Nat := 0

structure Versions (α : Type) where
  entries : List (Option (Version α)) := []
  nextId : Nat := 0

namespace Versions

variable {α : Type}

def entry (A : Versions α) (i : Nat) : Option (Version α) :=
  Places.get A.entries i

def isCopyOf (id : Nat) (v : Version α) : Bool := v.source == some id

def copies (A : Versions α) (id : Nat) : Nat :=
  Places.count (isCopyOf id) A.entries

def set (A : Versions α) (i : Nat) (x : Option (Version α)) : Versions α :=
  { A with entries := A.entries.set i x }

/-- One more place. -/
def extend (A : Versions α) : Versions α :=
  { A with entries := A.entries ++ [none] }

/-- A new value in place `j`. -/
def addAt (A : Versions α) (j : Nat) (contents : α) (source : Option Nat)
    (generation : Nat) : Versions α :=
  { entries := A.entries.set j (some
      { contents := contents, id := A.nextId, source := source
        generation := generation })
    nextId := A.nextId + 1 }

/-- A copy of value `i` in place `j`. -/
def copyAt (isEmpty : α → Bool) (A : Versions α) (j i : Nat) :
    Option (Versions α) := do
  let v ← A.entry i
  return if isEmpty v.contents then A.addAt j v.contents none 0
    else A.addAt j v.contents (some v.id) (v.generation + 1)

/-- The values `i` and `j` change places, with their copies. -/
def swapAt (A : Versions α) (i j : Nat) : Option (Versions α) := do
  let v ← A.entry i
  let w ← A.entry j
  return (A.set i (some w)).set j (some v)

/-- Value `i`, when it may be changed. -/
def writable (A : Versions α) (i : Nat) : Option (Version α) := do
  let v ← A.entry i
  guard (A.copies v.id = 0)
  return v

def destroyAt (A : Versions α) (i : Nat) : Option (Versions α) := do
  let _ ← A.writable i
  return A.set i none

/-! ## What an operation needs -/

variable {A A' : Versions α} {i j : Nat} {v w : Version α}

theorem writable_eq_some (h : A.writable i = some v) :
    A.entry i = some v ∧ A.copies v.id = 0 := by
  rw [writable, Option.bind_eq_bind, Option.bind_eq_some_iff] at h
  obtain ⟨w, hw, h⟩ := h
  by_cases hcopies : A.copies w.id = 0
  · rw [guard, if_pos hcopies] at h
    cases h
    exact ⟨hw, hcopies⟩
  · rw [guard, if_neg hcopies] at h
    cases h

theorem copies_eq_zero_iff {id : Nat} :
    A.copies id = 0 ↔ ∀ i v, A.entry i = some v → v.source ≠ some id := by
  rw [copies, Places.count_eq_zero_iff]
  refine forall_congr' fun i => forall_congr' fun v => ?_
  refine imp_congr_right fun _ => ?_
  rw [isCopyOf, beq_eq_false_iff_ne]

theorem lt_of_entry (h : A.entry i = some v) : i < A.entries.length :=
  Places.lt_of_get h

theorem entry_set (hi : i < A.entries.length) (x : Option (Version α))
    (j : Nat) : (A.set i x).entry j = if j = i then x else A.entry j :=
  Places.get_set hi x j

theorem entry_extend (A : Versions α) (j : Nat) : A.extend.entry j = A.entry j :=
  Places.get_concat_none A.entries j

theorem copies_extend (A : Versions α) (id : Nat) :
    A.extend.copies id = A.copies id :=
  Places.count_concat_none _ A.entries

theorem entry_swap (hi : A.entry i = some v) (hj : A.entry j = some w)
    (l : Nat) : ((A.set i (some w)).set j (some v)).entry l =
      if l = j then some v else if l = i then some w else A.entry l := by
  have hlen : j < (A.set i (some w)).entries.length := by
    show j < (A.entries.set i _).length
    rw [List.length_set]
    exact lt_of_entry hj
  rw [entry_set hlen, entry_set (lt_of_entry hi)]

theorem swapAt_eq_some (h : A.swapAt i j = some A') :
    ∃ v w, A.entry i = some v ∧ A.entry j = some w ∧
      A' = (A.set i (some w)).set j (some v) := by
  rw [swapAt, Option.bind_eq_bind, Option.bind_eq_some_iff] at h
  obtain ⟨v, hi, h⟩ := h
  rw [Option.bind_eq_some_iff] at h
  obtain ⟨w, hj, h⟩ := h
  cases h
  exact ⟨v, w, hi, hj, rfl⟩

theorem destroyAt_eq_some (h : A.destroyAt i = some A') :
    ∃ v, A.entry i = some v ∧ A.copies v.id = 0 ∧ A' = A.set i none := by
  rw [destroyAt, Option.bind_eq_bind, Option.bind_eq_some_iff] at h
  obtain ⟨v, hv, h⟩ := h
  cases h
  exact ⟨v, (writable_eq_some hv).1, (writable_eq_some hv).2, rfl⟩

theorem entry_addAt (hj : j < A.entries.length) (contents : α)
    (source : Option Nat) (generation l : Nat) :
    (A.addAt j contents source generation).entry l =
      if l = j then some ⟨contents, A.nextId, source, generation⟩
      else A.entry l := Places.get_set hj _ l

/-! ## Live values and their copies -/

def Live (A : Versions α) (v : Version α) : Prop := ∃ i, A.entry i = some v

theorem live_extend : A.extend.Live v ↔ A.Live v :=
  exists_congr fun i => by rw [entry_extend]

theorem live_swap {u : Version α} (hi : A.entry i = some v)
    (hj : A.entry j = some w) :
    ((A.set i (some w)).set j (some v)).Live u ↔ A.Live u := by
  have hentry := entry_swap hi hj
  constructor
  · intro h
    obtain ⟨l, hl⟩ := h
    rw [hentry] at hl
    split at hl
    · exact ⟨i, hi.trans hl⟩
    · split at hl
      · exact ⟨j, hj.trans hl⟩
      · exact ⟨l, hl⟩
  · intro h
    obtain ⟨l, hl⟩ := h
    by_cases hli : l = i
    · refine ⟨j, ?_⟩
      rw [hentry, if_pos rfl, ← hl, hli, hi]
    · by_cases hlj : l = j
      · refine ⟨i, ?_⟩
        rw [hentry, if_neg (fun hij => hli (hlj.trans hij.symm)), if_pos rfl, ← hl,
          hlj, hj]
      · exact ⟨l, by rw [hentry, if_neg hlj, if_neg hli, hl]⟩

/-- The values after place `i` was given `x`. -/
theorem live_set {x : Option (Version α)} (hi : i < A.entries.length)
    {u : Version α} : (A.set i x).Live u ↔
      x = some u ∨ ∃ l, l ≠ i ∧ A.entry l = some u := by
  constructor
  · intro h
    obtain ⟨l, hl⟩ := h
    rw [entry_set hi] at hl
    by_cases hli : l = i
    · rw [if_pos hli] at hl
      exact Or.inl hl
    · rw [if_neg hli] at hl
      exact Or.inr ⟨l, hli, hl⟩
  · intro h
    cases h with
    | inl hx => exact ⟨i, by rw [entry_set hi, if_pos rfl, hx]⟩
    | inr h =>
      obtain ⟨l, hli, hl⟩ := h
      exact ⟨l, by rw [entry_set hi, if_neg hli, hl]⟩

/-- The copies after place `i` was given `x`. -/
theorem copies_set {x : Option (Version α)} (hi : i < A.entries.length)
    (id : Nat) :
    (A.set i x).copies id + (if (A.entry i).any (isCopyOf id) then 1 else 0) =
      A.copies id + if x.any (isCopyOf id) then 1 else 0 :=
  Places.count_set hi x

theorem copies_put (hi : A.entry i = some v) (contents : α) (id : Nat) :
    (A.set i (some { v with contents := contents })).copies id = A.copies id := by
  have hset := copies_set (x := some { v with contents := contents })
    (lt_of_entry hi) id
  rw [hi, Option.any_some, Option.any_some] at hset
  exact Nat.add_right_cancel hset

theorem copies_swap (hi : A.entry i = some v) (hj : A.entry j = some w)
    (id : Nat) : ((A.set i (some w)).set j (some v)).copies id = A.copies id := by
  have hlen : j < (A.set i (some w)).entries.length := by
    show j < (A.entries.set i _).length
    rw [List.length_set]
    exact lt_of_entry hj
  have h₁ := copies_set (x := some w) (lt_of_entry hi) id
  have h₂ := copies_set (x := some v) hlen id
  have hmid : (A.set i (some w)).entry j = some w := by
    rw [entry_set (lt_of_entry hi), hj, ite_self]
  rw [hi] at h₁
  rw [hmid] at h₂
  omega

/-! ## The invariant -/

structure Wf (A : Versions α) : Prop where
  fresh : ∀ i v, A.entry i = some v → v.id < A.nextId
  distinct : ∀ i j v w, A.entry i = some v → A.entry j = some w →
    v.id = w.id → i = j
  source : ∀ i v s, A.entry i = some v → v.source = some s →
    ∃ j p, A.entry j = some p ∧ p.id = s ∧ p.id < v.id ∧
      v.generation = p.generation + 1

namespace Wf

theorem empty : ({} : Versions α).Wf where
  fresh := fun i v h => by cases h
  distinct := fun i j v w h => by cases h
  source := fun i v s h => by cases h

/-- Values with the same number are the same. -/
theorem eq_of_id (h : A.Wf) (hi : A.entry i = some v) (hj : A.entry j = some w)
    (hid : v.id = w.id) : v = w := by
  have hij := h.distinct i j v w hi hj hid
  rw [hij, hj] at hi
  exact (Option.some.inj hi).symm

theorem extend (h : A.Wf) : A.extend.Wf where
  fresh := by
    intro i v hi
    rw [entry_extend] at hi
    exact h.fresh i v hi
  distinct := by
    intro i j v w hi hj
    rw [entry_extend] at hi hj
    exact h.distinct i j v w hi hj
  source := by
    intro i v s hi hs
    rw [entry_extend] at hi
    obtain ⟨j, p, hj, hp⟩ := h.source i v s hi hs
    exact ⟨j, p, by rw [entry_extend, hj], hp⟩

/-- A change of the contents. -/
theorem put (h : A.Wf) (hi : A.entry i = some v) (contents : α) :
    (A.set i (some { v with contents := contents })).Wf := by
  -- Up to contents the entries are the same.
  have hback : ∀ j w, (A.set i (some { v with contents := contents })).entry j =
      some w → ∃ u, A.entry j = some u ∧ u.id = w.id ∧ u.source = w.source ∧
        u.generation = w.generation := by
    intro j w hj
    rw [entry_set (lt_of_entry hi)] at hj
    by_cases hji : j = i
    · rw [if_pos hji] at hj
      cases hj
      exact ⟨v, by rw [hji, hi], rfl, rfl, rfl⟩
    · rw [if_neg hji] at hj
      exact ⟨w, hj, rfl, rfl, rfl⟩
  constructor
  · intro j w hj
    obtain ⟨u, hu, hid, _⟩ := hback j w hj
    rw [← hid]
    exact h.fresh j u hu
  · intro j l w u hj hl hid
    obtain ⟨w', hw', hidW, _⟩ := hback j w hj
    obtain ⟨u', hu', hidU, _⟩ := hback l u hl
    exact h.distinct j l w' u' hw' hu' (by rw [hidW, hidU, hid])
  · intro j w s hj hs
    obtain ⟨u, hu, hid, hsource, hgen⟩ := hback j w hj
    obtain ⟨l, p, hl, hp, hlt, hgenP⟩ := h.source j u s hu (hsource.trans hs)
    rw [hid] at hlt
    rw [hgen] at hgenP
    by_cases hli : l = i
    · rw [hli, hi] at hl
      cases hl
      exact ⟨i, { v with contents := contents },
        by rw [entry_set (lt_of_entry hi), if_pos rfl], hp, hlt, hgenP⟩
    · exact ⟨l, p, by rw [entry_set (lt_of_entry hi), if_neg hli, hl], hp, hlt,
        hgenP⟩

/-- A new value in an empty place. -/
theorem addAt (h : A.Wf) (hj : j < A.entries.length) (hdead : A.entry j = none)
    (contents : α) {source : Option Nat} {generation : Nat}
    (hsource : ∀ s, source = some s → ∃ i p, A.entry i = some p ∧ p.id = s ∧
      generation = p.generation + 1) :
    (A.addAt j contents source generation).Wf := by
  have hentry := entry_addAt hj contents source generation
  have hkept : ∀ l p, A.entry l = some p →
      (A.addAt j contents source generation).entry l = some p := by
    intro l p hl
    rw [hentry, if_neg, hl]
    intro heq
    rw [heq, hdead] at hl
    cases hl
  constructor
  · intro l w hl
    show w.id < A.nextId + 1
    rw [hentry] at hl
    split at hl
    · cases hl
      exact Nat.lt_succ_self _
    · exact Nat.lt_succ_of_lt (h.fresh l w hl)
  · intro l m w u hl hm hid
    rw [hentry] at hl hm
    split at hl
    · rename_i hlj
      split at hm
      · rename_i hmj
        rw [hlj, hmj]
      · cases hl
        have hlt := h.fresh m u hm
        rw [← hid] at hlt
        exact absurd hlt (Nat.lt_irrefl _)
    · split at hm
      · cases hm
        have hlt := h.fresh l w hl
        rw [hid] at hlt
        exact absurd hlt (Nat.lt_irrefl _)
      · exact h.distinct l m w u hl hm hid
  · intro l w s hl hs
    rw [hentry] at hl
    split at hl
    · cases hl
      obtain ⟨i, p, hi, hp, hgen⟩ := hsource s hs
      exact ⟨i, p, hkept i p hi, hp, h.fresh i p hi, hgen⟩
    · obtain ⟨i, p, hi, hp⟩ := h.source l w s hl hs
      exact ⟨i, p, hkept i p hi, hp⟩

/-- A value without copies is gone. -/
theorem remove (h : A.Wf) (hi : A.entry i = some v) (hcopies : A.copies v.id = 0) :
    (A.set i none).Wf := by
  have hentry := entry_set (lt_of_entry hi) none
  have hback : ∀ l w, (A.set i none).entry l = some w → A.entry l = some w := by
    intro l w hl
    rw [hentry] at hl
    split at hl
    · cases hl
    · exact hl
  constructor
  · exact fun l w hl => h.fresh l w (hback l w hl)
  · exact fun l m w u hl hm => h.distinct l m w u (hback l w hl) (hback m u hm)
  · intro l w s hl hs
    obtain ⟨m, p, hm, hp⟩ := h.source l w s (hback l w hl) hs
    refine ⟨m, p, ?_, hp⟩
    rw [hentry, if_neg, hm]
    intro hmi
    rw [hmi, hi] at hm
    cases hm
    exact copies_eq_zero_iff.mp hcopies l w (hback l w hl) (by rw [hs, ← hp.1])

/-- The values at two places, one in the place of the other. -/
theorem swap (h : A.Wf) (hi : A.entry i = some v) (hj : A.entry j = some w) :
    ((A.set i (some w)).set j (some v)).Wf := by
  have hentry := entry_swap hi hj
  -- Every entry is one of `A`, and the other way round.
  have hback : ∀ l u, ((A.set i (some w)).set j (some v)).entry l = some u →
      A.entry (if l = j then i else if l = i then j else l) = some u := by
    intro l u hl
    rw [hentry] at hl
    split at hl
    · rename_i hlj
      rw [if_pos hlj, hi, hl]
    · rename_i hlj
      rw [if_neg hlj]
      split at hl
      · rename_i hli
        rw [if_pos hli, hj, hl]
      · rename_i hli
        rw [if_neg hli, hl]
  have hforth : ∀ l u, A.entry l = some u → ∃ m,
      ((A.set i (some w)).set j (some v)).entry m = some u := by
    intro l u hl
    by_cases hli : l = i
    · rw [hli, hi] at hl
      exact ⟨j, by rw [hentry, if_pos rfl, hl]⟩
    · by_cases hlj : l = j
      · rw [hlj, hj] at hl
        by_cases hij : i = j
        · exact absurd (hlj.trans hij.symm) hli
        · exact ⟨i, by rw [hentry, if_neg hij, if_pos rfl, hl]⟩
      · exact ⟨l, by rw [hentry, if_neg hlj, if_neg hli, hl]⟩
  constructor
  · exact fun l u hl => h.fresh _ u (hback l u hl)
  · intro l m u x hl hm hid
    have heq := h.distinct _ _ u x (hback l u hl) (hback m x hm) hid
    split at heq <;> split at heq <;> (try split at heq) <;>
      (try split at heq) <;> omega
  · intro l u s hl hs
    obtain ⟨m, p, hm, hp⟩ := h.source _ u s (hback l u hl) hs
    obtain ⟨m', hm'⟩ := hforth m p hm
    exact ⟨m', p, hm', hp⟩

/-! ## The live values after an operation -/

/-- The values in the other places. -/
theorem live_ne_iff (h : A.Wf) (hi : A.entry i = some v) {u : Version α} :
    (∃ l, l ≠ i ∧ A.entry l = some u) ↔ A.Live u ∧ u ≠ v := by
  constructor
  · intro hu
    obtain ⟨l, hli, hl⟩ := hu
    refine ⟨⟨l, hl⟩, ?_⟩
    intro heq
    exact hli (h.distinct l i u v hl hi (by rw [heq]))
  · intro hu
    obtain ⟨⟨l, hl⟩, hne⟩ := hu
    refine ⟨l, ?_, hl⟩
    intro hli
    rw [hli, hi] at hl
    exact hne (Option.some.inj hl).symm

theorem live_put (h : A.Wf) (hi : A.entry i = some v) {contents : α}
    {u : Version α} : (A.set i (some { v with contents := contents })).Live u ↔
      u = { v with contents := contents } ∨ A.Live u ∧ u ≠ v := by
  rw [live_set (lt_of_entry hi), h.live_ne_iff hi, Option.some.injEq, eq_comm]

theorem live_remove (h : A.Wf) (hi : A.entry i = some v) {u : Version α} :
    (A.set i none).Live u ↔ A.Live u ∧ u ≠ v := by
  rw [live_set (lt_of_entry hi), h.live_ne_iff hi]
  exact ⟨fun h => h.resolve_left (by simp), Or.inr⟩

end Wf

theorem live_addAt (hj : j < A.entries.length) (hdead : A.entry j = none)
    {contents : α} {source : Option Nat} {generation : Nat} {u : Version α} :
    (A.addAt j contents source generation).Live u ↔
      u = ⟨contents, A.nextId, source, generation⟩ ∨ A.Live u := by
  have hset : (A.addAt j contents source generation).Live u ↔
      (A.set j (some ⟨contents, A.nextId, source, generation⟩)).Live u := Iff.rfl
  rw [hset, live_set hj, Option.some.injEq, eq_comm]
  refine or_congr Iff.rfl ?_
  constructor
  · exact fun ⟨l, _, hl⟩ => ⟨l, hl⟩
  · intro hu
    obtain ⟨l, hl⟩ := hu
    refine ⟨l, ?_, hl⟩
    intro hlj
    rw [hlj, hdead] at hl
    cases hl

theorem copies_addAt (hj : j < A.entries.length) (hdead : A.entry j = none)
    (contents : α) (source : Option Nat) (generation id : Nat) :
    (A.addAt j contents source generation).copies id =
      A.copies id + if source = some id then 1 else 0 := by
  have hset := copies_set
    (x := some (⟨contents, A.nextId, source, generation⟩ : Version α)) hj id
  have hcopy : isCopyOf id
      (⟨contents, A.nextId, source, generation⟩ : Version α) = true ↔
      source = some id := beq_iff_eq
  rw [hdead, Option.any_none, if_neg Bool.false_ne_true, Option.any_some] at hset
  simp only [hcopy] at hset
  exact hset

theorem copies_remove (hi : A.entry i = some v) (id : Nat) :
    (A.set i none).copies id + (if v.source = some id then 1 else 0) =
      A.copies id := by
  have hset := copies_set (x := none) (lt_of_entry hi) id
  have hcopy : isCopyOf id v = true ↔ v.source = some id := beq_iff_eq
  rw [hi, Option.any_some, Option.any_none, if_neg Bool.false_ne_true] at hset
  simp only [hcopy] at hset
  exact hset

end Versions
