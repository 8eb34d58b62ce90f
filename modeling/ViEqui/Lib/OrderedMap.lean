import Mathlib.Order.Lattice
import Mathlib.Data.List.Basic
import Mathlib.Data.List.Perm.Basic
import Mathlib.Tactic.SplitIfs

/-!
# Ordered maps

`std::map` modelled as the list of its entries in the order of the keys.
The order is a field of the structure, so `begin()` is the head of the list
and `--end()` is its last element.

* `modify` is `operator[]` followed by an update.
* `first?`, `setFirst`, `eraseFirst` work at `begin()`; `last?`, `setLast`,
  `eraseLast` work at `--end()`.
* `All` and `contents` say what a property of the values, or a list drawn
  from them, is after each operation.
-/

/-- The entries of a map, in the strict order of their keys. -/
structure OrderedMap (κ ν : Type) [LT κ] where
  entries : List (κ × ν)
  sorted : entries.Pairwise (fun a b => a.1 < b.1)

namespace OrderedMap

variable {κ ν α : Type}

section Operations

variable [LinearOrder κ]

/-- The map without entries. -/
def empty : OrderedMap κ ν := ⟨[], List.Pairwise.nil⟩

/-- `m.empty()`. -/
def isEmpty (m : OrderedMap κ ν) : Bool := m.entries.isEmpty

/-- The entry of `k` updated in place; a new one starts from `d`. -/
def modifyEntries (k : κ) (d : ν) (f : ν → ν) : List (κ × ν) → List (κ × ν)
  | [] => [(k, f d)]
  | (k', v) :: l =>
    if k < k' then (k, f d) :: (k', v) :: l
    else if k' < k then (k', v) :: modifyEntries k d f l
    else (k', f v) :: l

theorem keys_modifyEntries (k : κ) (d : ν) (f : ν → ν) (l : List (κ × ν))
    {e : κ × ν} (he : e ∈ modifyEntries k d f l) :
    e.1 = k ∨ ∃ e' ∈ l, e'.1 = e.1 := by
  induction l with
  | nil =>
    simp only [modifyEntries, List.mem_singleton] at he
    exact .inl (by rw [he])
  | cons head l ih =>
    obtain ⟨k', v⟩ := head
    rw [modifyEntries] at he
    split_ifs at he with hlt hgt
    · rcases List.mem_cons.mp he with rfl | he
      · exact .inl rfl
      · exact .inr ⟨e, he, rfl⟩
    · rcases List.mem_cons.mp he with rfl | he
      · exact .inr ⟨_, List.mem_cons_self, rfl⟩
      · rcases ih he with hk | ⟨e', he', hkey⟩
        · exact .inl hk
        · exact .inr ⟨e', List.mem_cons_of_mem _ he', hkey⟩
    · rcases List.mem_cons.mp he with rfl | he
      · exact .inr ⟨_, List.mem_cons_self, rfl⟩
      · exact .inr ⟨e, List.mem_cons_of_mem _ he, rfl⟩

theorem sorted_modifyEntries (k : κ) (d : ν) (f : ν → ν)
    {l : List (κ × ν)} (h : l.Pairwise (fun a b => a.1 < b.1)) :
    (modifyEntries k d f l).Pairwise (fun a b => a.1 < b.1) := by
  induction l with
  | nil => exact List.pairwise_singleton _ _
  | cons head l ih =>
    obtain ⟨k', v⟩ := head
    obtain ⟨hhead, htail⟩ := List.pairwise_cons.mp h
    rw [modifyEntries]
    split_ifs with hlt hgt
    · refine List.pairwise_cons.mpr ⟨?_, h⟩
      intro e he
      rcases List.mem_cons.mp he with rfl | he
      · exact hlt
      · exact hlt.trans (hhead e he)
    · refine List.pairwise_cons.mpr ⟨?_, ih htail⟩
      intro e he
      rcases keys_modifyEntries k d f l he with hk | ⟨e', he', hkey⟩
      · rw [hk]
        exact hgt
      · rw [← hkey]
        exact hhead e' he'
    · exact List.pairwise_cons.mpr ⟨hhead, htail⟩

/-- `f(m[k])`, where a missing key starts from `d`. -/
def modify (m : OrderedMap κ ν) (k : κ) (d : ν) (f : ν → ν) :
    OrderedMap κ ν :=
  ⟨modifyEntries k d f m.entries, sorted_modifyEntries k d f m.sorted⟩

/-- `*m.begin()`. -/
def first? (m : OrderedMap κ ν) : Option (κ × ν) := m.entries.head?

/-- `*--m.end()`. -/
def last? (m : OrderedMap κ ν) : Option (κ × ν) := m.entries.getLast?

/-- `m.erase(m.begin())`. -/
def eraseFirst (m : OrderedMap κ ν) : OrderedMap κ ν :=
  ⟨m.entries.tail, m.sorted.tail⟩

/-- `m.erase(--m.end())`. -/
def eraseLast (m : OrderedMap κ ν) : OrderedMap κ ν :=
  ⟨m.entries.dropLast, m.sorted.sublist (List.dropLast_sublist _)⟩

/-- The entries with another value at the first key. -/
def setFirstEntries (v : ν) : List (κ × ν) → List (κ × ν)
  | [] => []
  | (k, _) :: l => (k, v) :: l

/-- `m.begin()->second = v`. -/
def setFirst (m : OrderedMap κ ν) (v : ν) : OrderedMap κ ν :=
  ⟨setFirstEntries v m.entries, by
    obtain ⟨l, h⟩ := m
    cases l with
    | nil => exact List.Pairwise.nil
    | cons e l => exact List.pairwise_cons.mpr (List.pairwise_cons.mp h)⟩

/-- The entries with another value at the last key. -/
def setLastEntries (v : ν) : List (κ × ν) → List (κ × ν)
  | [] => []
  | [(k, _)] => [(k, v)]
  | e :: e' :: l => e :: setLastEntries v (e' :: l)

omit [LinearOrder κ] in
theorem setLastEntries_append (v w : ν) (k : κ) (l : List (κ × ν)) :
    setLastEntries v (l ++ [(k, w)]) = l ++ [(k, v)] := by
  induction l with
  | nil => rfl
  | cons e l ih =>
    cases l with
    | nil => rfl
    | cons e' l => exact congrArg (e :: ·) ih

theorem sorted_setLastEntries (v : ν) {l : List (κ × ν)}
    (h : l.Pairwise (fun a b => a.1 < b.1)) :
    (setLastEntries v l).Pairwise (fun a b => a.1 < b.1) := by
  rcases List.eq_nil_or_concat l with rfl | ⟨l, ⟨k, w⟩, rfl⟩
  · exact List.Pairwise.nil
  · rw [List.concat_eq_append] at h ⊢
    rw [setLastEntries_append]
    rw [List.pairwise_append] at h ⊢
    refine ⟨h.1, List.pairwise_singleton _ _, ?_⟩
    intro a ha b hb
    rw [List.mem_singleton.mp hb]
    exact h.2.2 a ha (k, w) (List.mem_singleton.mpr rfl)

/-- `(--m.end())->second = v`. -/
def setLast (m : OrderedMap κ ν) (v : ν) : OrderedMap κ ν :=
  ⟨setLastEntries v m.entries, sorted_setLastEntries v m.sorted⟩

end Operations

/-! ## What the values are -/

section Values

variable [LinearOrder κ]

/-- Every value has the property `P`. -/
def All (P : ν → Prop) (m : OrderedMap κ ν) : Prop := ∀ e ∈ m.entries, P e.2

/-- The elements of the values, in the order of the keys. -/
def contents (m : OrderedMap κ (List α)) : List α := m.entries.flatMap Prod.snd

theorem all_empty (P : ν → Prop) : (empty : OrderedMap κ ν).All P := by
  intro e he
  cases he

theorem isEmpty_iff {m : OrderedMap κ ν} : m.isEmpty ↔ m.entries = [] :=
  List.isEmpty_iff

theorem entries_of_first? {m : OrderedMap κ ν} {e : κ × ν}
    (h : m.first? = some e) : ∃ l, m.entries = e :: l :=
  ⟨m.entries.tail, (List.cons_head?_tail h).symm⟩

theorem entries_of_last? {m : OrderedMap κ ν} {e : κ × ν}
    (h : m.last? = some e) : ∃ l, m.entries = l ++ [e] :=
  List.getLast?_eq_some_iff.mp h

theorem first?_eq_none {m : OrderedMap κ ν} : m.first? = none ↔ m.isEmpty := by
  rw [first?, isEmpty_iff, List.head?_eq_none_iff]

theorem last?_eq_none {m : OrderedMap κ ν} : m.last? = none ↔ m.isEmpty := by
  rw [last?, isEmpty_iff, List.getLast?_eq_none_iff]

theorem not_isEmpty_modify (m : OrderedMap κ ν) (k : κ) (d : ν) (f : ν → ν) :
    ¬ (m.modify k d f).isEmpty := by
  show ¬ (modifyEntries k d f m.entries).isEmpty
  cases m.entries with
  | nil => exact nofun
  | cons head l =>
    rw [modifyEntries]
    split_ifs <;> exact nofun

/-- Adding elements to the list of a key adds them to the contents. -/
theorem contents_modify (m : OrderedMap κ (List α)) (k : κ)
    {f : List α → List α} {xs : List α} (hf : ∀ l, (f l).Perm (xs ++ l)) :
    (m.modify k [] f).contents.Perm (xs ++ m.contents) := by
  show ((modifyEntries k [] f m.entries).flatMap Prod.snd).Perm
    (xs ++ m.entries.flatMap Prod.snd)
  induction m.entries with
  | nil => simpa [modifyEntries] using hf []
  | cons head l ih =>
    obtain ⟨k', v⟩ := head
    rw [modifyEntries]
    split_ifs with hlt hgt
    · simp only [List.flatMap_cons]
      exact (by simpa using hf [] : (f []).Perm xs).append_right _
    · simp only [List.flatMap_cons]
      refine (ih.append_left v).trans ?_
      rw [← List.append_assoc, ← List.append_assoc]
      exact List.perm_append_comm.append_right _
    · simp only [List.flatMap_cons]
      rw [← List.append_assoc]
      exact (hf v).append_right _

theorem All.modify {P : ν → Prop} {m : OrderedMap κ ν} (h : m.All P) (k : κ)
    (d : ν) {f : ν → ν} (hd : P (f d)) (hf : ∀ v, P v → P (f v)) :
    (m.modify k d f).All P := by
  show ∀ e ∈ modifyEntries k d f m.entries, P e.2
  have hall : ∀ e ∈ m.entries, P e.2 := h
  generalize m.entries = entries at hall
  induction entries with
  | nil =>
    intro e he
    rw [List.mem_singleton.mp he]
    exact hd
  | cons head l ih =>
    obtain ⟨k', v⟩ := head
    have hhead : P v := hall (k', v) List.mem_cons_self
    have htail : ∀ e ∈ l, P e.2 := fun e he =>
      hall e (List.mem_cons_of_mem _ he)
    rw [modifyEntries]
    split_ifs with hlt hgt
    · intro e he
      rcases List.mem_cons.mp he with rfl | he
      · exact hd
      · exact hall e he
    · intro e he
      rcases List.mem_cons.mp he with rfl | he
      · exact hhead
      · exact ih htail e he
    · intro e he
      rcases List.mem_cons.mp he with rfl | he
      · exact hf v hhead
      · exact htail e he

@[simp] theorem entries_eraseFirst (m : OrderedMap κ ν) :
    m.eraseFirst.entries = m.entries.tail := rfl

@[simp] theorem entries_eraseLast (m : OrderedMap κ ν) :
    m.eraseLast.entries = m.entries.dropLast := rfl

@[simp] theorem entries_setFirst (m : OrderedMap κ ν) (v : ν) :
    (m.setFirst v).entries = setFirstEntries v m.entries := rfl

@[simp] theorem entries_setLast (m : OrderedMap κ ν) (v : ν) :
    (m.setLast v).entries = setLastEntries v m.entries := rfl

theorem contents_first {m : OrderedMap κ (List α)} {k : κ} {l : List α}
    (h : m.first? = some (k, l)) :
    m.contents = l ++ m.eraseFirst.contents := by
  obtain ⟨rest, hm⟩ := entries_of_first? h
  simp [contents, hm]

theorem contents_last {m : OrderedMap κ (List α)} {k : κ} {l : List α}
    (h : m.last? = some (k, l)) : m.contents = m.eraseLast.contents ++ l := by
  obtain ⟨rest, hm⟩ := entries_of_last? h
  simp [contents, hm]

theorem contents_setFirst {m : OrderedMap κ (List α)} {k : κ} {l : List α}
    (h : m.first? = some (k, l)) (l' : List α) :
    (m.setFirst l').contents = l' ++ m.eraseFirst.contents := by
  obtain ⟨rest, hm⟩ := entries_of_first? h
  simp [contents, hm, setFirstEntries]

theorem contents_setLast {m : OrderedMap κ (List α)} {k : κ} {l : List α}
    (h : m.last? = some (k, l)) (l' : List α) :
    (m.setLast l').contents = m.eraseLast.contents ++ l' := by
  obtain ⟨rest, hm⟩ := entries_of_last? h
  simp [contents, hm, setLastEntries_append]

theorem All.eraseFirst {P : ν → Prop} {m : OrderedMap κ ν} (h : m.All P) :
    m.eraseFirst.All P :=
  fun e he => h e (List.mem_of_mem_tail he)

theorem All.eraseLast {P : ν → Prop} {m : OrderedMap κ ν} (h : m.All P) :
    m.eraseLast.All P :=
  fun e he => h e ((List.dropLast_sublist _).subset he)

theorem All.setFirst {P : ν → Prop} {m : OrderedMap κ ν} (h : m.All P)
    {v : ν} (hv : P v) : (m.setFirst v).All P := by
  show ∀ e ∈ setFirstEntries v m.entries, P e.2
  have hall : ∀ e ∈ m.entries, P e.2 := h
  cases hm : m.entries with
  | nil =>
    intro e he
    cases he
  | cons head l =>
    intro e he
    rcases List.mem_cons.mp he with rfl | he
    · exact hv
    · exact hall e (by rw [hm]; exact List.mem_cons_of_mem _ he)

theorem All.setLast {P : ν → Prop} {m : OrderedMap κ ν} (h : m.All P)
    {v : ν} (hv : P v) : (m.setLast v).All P := by
  show ∀ e ∈ setLastEntries v m.entries, P e.2
  have hall : ∀ e ∈ m.entries, P e.2 := h
  rcases List.eq_nil_or_concat m.entries with hm | ⟨l, ⟨k, w⟩, hm⟩
  · rw [hm]
    intro e he
    cases he
  · rw [hm, List.concat_eq_append, setLastEntries_append]
    rw [hm, List.concat_eq_append] at hall
    intro e he
    rcases List.mem_append.mp he with he | he
    · exact hall e (List.mem_append_left _ he)
    · rw [List.mem_singleton.mp he]
      exact hv

end Values

end OrderedMap
