import Mathlib.Data.List.Nodup
import Mathlib.Data.List.Perm.Subperm

/-!
# Finite maps as association lists

`std::unordered_map` modelled as the list of its entries, newest key last.
A key occurs at most once as long as the list is built by `insert` and
`erase` from `[]`.  The list order is an artefact of the model: the map of
the source has no specified iteration order, so code that iterates over one
takes the order as an argument.
-/

namespace AssocMap

variable {κ ν : Type}

/-- The entries of a map, one pair for each key. -/
abbrev Map (κ ν : Type) := List (κ × ν)

/-- `find` followed by a dereference. -/
def find? [DecidableEq κ] : Map κ ν → κ → Option ν
  | [], _ => none
  | (k', v) :: m, k => if k' = k then some v else find? m k

/-- `operator[]` as a right-hand side: a missing key reads the default. -/
def getD [DecidableEq κ] (m : Map κ ν) (k : κ) (d : ν) : ν :=
  (find? m k).getD d

/-- `find(k) != end()`. -/
def contains [DecidableEq κ] (m : Map κ ν) (k : κ) : Bool :=
  (find? m k).isSome

/-- `m[k] = v`. -/
def insert [DecidableEq κ] : Map κ ν → κ → ν → Map κ ν
  | [], k, v => [(k, v)]
  | (k', v') :: m, k, v =>
    if k' = k then (k', v) :: m else (k', v') :: insert m k v

/-- `m.erase(k)`. -/
def erase [DecidableEq κ] (m : Map κ ν) (k : κ) : Map κ ν :=
  m.filter (fun e => e.1 ≠ k)

/-- `m[k]` updated in place, starting from the default when `k` is new. -/
def modify [DecidableEq κ] (m : Map κ ν) (k : κ) (d : ν) (f : ν → ν) :
    Map κ ν :=
  insert m k (f (getD m k d))

variable [DecidableEq κ]

@[simp] theorem find?_nil (k : κ) : find? ([] : Map κ ν) k = none := rfl

theorem insert_ne_nil (m : Map κ ν) (k : κ) (v : ν) : insert m k v ≠ [] := by
  cases m with
  | nil => exact nofun
  | cons e m =>
    unfold insert
    split <;> exact nofun

theorem find?_insert (m : Map κ ν) (k k' : κ) (v : ν) :
    find? (insert m k v) k' = if k = k' then some v else find? m k' := by
  induction m with
  | nil => rfl
  | cons e m ih =>
    obtain ⟨k₀, v₀⟩ := e
    by_cases h : k₀ = k
    · subst h
      by_cases h' : k₀ = k' <;> simp [insert, find?, h']
    · by_cases h' : k₀ = k'
      · subst h'
        simp [insert, find?, h, Ne.symm h]
      · simp [insert, find?, h, h', ih]

@[simp] theorem find?_insert_self (m : Map κ ν) (k : κ) (v : ν) :
    find? (insert m k v) k = some v := by
  simp [find?_insert]

theorem find?_insert_ne (m : Map κ ν) {k k' : κ} (v : ν) (h : k ≠ k') :
    find? (insert m k v) k' = find? m k' := by
  simp [find?_insert, h]

theorem getD_insert (m : Map κ ν) (k k' : κ) (v d : ν) :
    getD (insert m k v) k' d = if k = k' then v else getD m k' d := by
  unfold getD
  rw [find?_insert]
  split <;> rfl

theorem getD_modify (m : Map κ ν) (k k' : κ) (d : ν) (f : ν → ν) :
    getD (modify m k d f) k' d =
      if k = k' then f (getD m k' d) else getD m k' d := by
  unfold modify
  rw [getD_insert]
  split
  · next h => rw [h]
  · rfl

/-- A map whose values are changed one by one. -/
theorem find?_map_snd {ν' : Type} (m : Map κ ν) (f : ν → ν') (k : κ) :
    find? (m.map fun e => (e.1, f e.2)) k = (find? m k).map f := by
  induction m with
  | nil => rfl
  | cons e m ih =>
    simp only [List.map_cons, find?]
    split
    · rfl
    · exact ih

/-- New keys get the value `v`, and the entries that exist stay. -/
theorem find?_foldl_insert_new {ν' : Type} (l : Map κ ν') (m : Map κ ν) (v : ν)
    (k : κ) :
    find? (l.foldl (fun m e => if contains m e.1 then m else insert m e.1 v) m) k =
      (find? m k).or (if contains l k then some v else none) := by
  induction l generalizing m with
  | nil => simp [contains, find?]
  | cons e l ih =>
    rw [List.foldl_cons, ih]
    by_cases hk : e.1 = k
    · subst hk
      by_cases hm : contains m e.1
      · rw [if_pos hm]
        cases hfind : find? m e.1 with
        | none => simp [contains, hfind] at hm
        | some x => rfl
      · rw [if_neg hm, find?_insert_self]
        have hnone : find? m e.1 = none := by
          simpa [contains, Option.isSome_iff_ne_none] using hm
        simp [hnone, contains, find?]
    · have hl : contains (e :: l) k = contains l k := by
        simp [contains, find?, hk]
      rw [hl]
      split
      · rfl
      · rw [find?_insert_ne _ _ hk]

/-! ## Keys -/

/-- No key occurs twice. -/
def Wf (m : Map κ ν) : Prop := (m.map Prod.fst).Nodup

omit [DecidableEq κ] in
@[simp] theorem wf_nil : Wf ([] : Map κ ν) := List.nodup_nil

theorem mem_keys_insert (m : Map κ ν) (k k' : κ) (v : ν) :
    k' ∈ (insert m k v).map Prod.fst ↔ k' = k ∨ k' ∈ m.map Prod.fst := by
  induction m with
  | nil => simp [insert]
  | cons e m ih =>
    obtain ⟨k₀, v₀⟩ := e
    by_cases h : k₀ = k
    · subst h
      simp [insert]
    · simp only [insert, if_neg h, List.map_cons, List.mem_cons, ih]
      tauto

theorem Wf.insert {m : Map κ ν} (hm : Wf m) (k : κ) (v : ν) :
    Wf (insert m k v) := by
  induction m with
  | nil => simp [Wf, AssocMap.insert]
  | cons e m ih =>
    obtain ⟨k₀, v₀⟩ := e
    have hhead : k₀ ∉ m.map Prod.fst := (List.nodup_cons.mp hm).1
    have htail : Wf m := (List.nodup_cons.mp hm).2
    by_cases h : k₀ = k
    · simpa [Wf, AssocMap.insert, h] using hm
    · simp only [AssocMap.insert, if_neg h]
      refine List.nodup_cons.mpr ⟨?_, ih htail⟩
      rw [mem_keys_insert]
      rintro (hk | hk)
      · exact h hk
      · exact hhead hk

theorem Wf.find?_eq_some_iff {m : Map κ ν} (hm : Wf m) {k : κ} {v : ν} :
    find? m k = some v ↔ (k, v) ∈ m := by
  induction m with
  | nil => simp
  | cons e m ih =>
    obtain ⟨k₀, v₀⟩ := e
    have hhead : k₀ ∉ m.map Prod.fst := (List.nodup_cons.mp hm).1
    have htail : Wf m := (List.nodup_cons.mp hm).2
    by_cases h : k₀ = k
    · subst h
      have hk : (k₀, v) ∉ m := fun hmem => hhead (List.mem_map_of_mem hmem)
      simp [find?, hk, eq_comm]
    · simp [find?, h, ih htail, Ne.symm h]

/-- Maps with the same entries have the same size. -/
theorem Wf.length_eq {m m' : Map κ ν} (hm : Wf m) (hm' : Wf m')
    (h : ∀ k, find? m k = find? m' k) : m.length = m'.length := by
  have hmem : ∀ e, e ∈ m ↔ e ∈ m' := by
    intro e
    rw [← hm.find?_eq_some_iff, ← hm'.find?_eq_some_iff, h]
  have hperm := (List.perm_ext_iff_of_nodup (List.Nodup.of_map Prod.fst hm)
    (List.Nodup.of_map Prod.fst hm')).mpr hmem
  exact hperm.length_eq

/-- A map is determined by its size and a map that contains it. -/
theorem Wf.find?_eq_of_length_eq {m m' : Map κ ν} (hm : Wf m) (hm' : Wf m')
    (hlen : m.length = m'.length)
    (hsub : ∀ e ∈ m, find? m' e.1 = some e.2) (k : κ) :
    find? m k = find? m' k := by
  have hsubset : m ⊆ m' := fun e he => hm'.find?_eq_some_iff.mp (hsub e he)
  have hnodup : m.Nodup := List.Nodup.of_map Prod.fst hm
  have hperm : m.Perm m' :=
    (hnodup.subperm hsubset).perm_of_length_le (Nat.le_of_eq hlen.symm)
  refine Option.ext fun v => ?_
  rw [hm.find?_eq_some_iff, hm'.find?_eq_some_iff, hperm.mem_iff]

end AssocMap
