import Mathlib.Data.List.Perm.Basic
import Mathlib.Data.List.Pairwise

/-!
# Finite maps over keys with an equality of their own

A finite map is a list of pairs with `Distinct` keys, where `==` says when two
keys are the same.  `update` is what `operator[]` of a map is for: a change of
the value of a key, from a default when the key is new.

The order of the pairs does not matter: `lookup_perm` and `update_perm`.
-/

namespace KeyedPairs

variable {κ ν : Type} [BEq κ]

/-- The key is in the list. -/
def Present (k : κ) (m : List (κ × ν)) : Prop := ∃ p ∈ m, (k == p.1) = true

def lookup (k : κ) (m : List (κ × ν)) : Option ν :=
  (m.find? fun p => k == p.1).map Prod.snd

/-- The value of `k` becomes `v` where `k` is. -/
def assign (k : κ) (v : ν) (m : List (κ × ν)) : List (κ × ν) :=
  m.map fun p => if k == p.1 then (p.1, v) else p

def update (k : κ) (d : ν) (f : ν → ν) (m : List (κ × ν)) : List (κ × ν) :=
  match lookup k m with
  | none => (k, f d) :: m
  | some v => assign k (f v) m

/-- No key occurs twice. -/
def Distinct (m : List (κ × ν)) : Prop :=
  m.Pairwise fun p q => (p.1 == q.1) = false

section

variable {k : κ} {m m' : List (κ × ν)}

theorem lookup_eq_none_iff : lookup k m = none ↔ ¬ Present k m := by
  rw [lookup, Option.map_eq_none_iff, List.find?_eq_none]
  constructor
  · intro h hp
    obtain ⟨p, hp, hkey⟩ := hp
    exact h p hp hkey
  · exact fun h p hp hkey => h ⟨p, hp, hkey⟩

theorem mem_of_lookup {v : ν} (h : lookup k m = some v) :
    ∃ p ∈ m, (k == p.1) = true ∧ p.2 = v := by
  rw [lookup, Option.map_eq_some_iff] at h
  obtain ⟨p, hp, hv⟩ := h
  exact ⟨p, List.mem_of_find?_eq_some hp,
    List.find?_some (p := fun p : κ × ν => k == p.1) hp, hv⟩

theorem lookup_cons {p : κ × ν} (hkey : (k == p.1) = true) :
    lookup k (p :: m) = some p.2 := by
  rw [lookup, List.find?_cons_of_pos (p := fun p : κ × ν => k == p.1) hkey]
  rfl

theorem assign_cons {p : κ × ν} (hkey : (k == p.1) = true) (v : ν) :
    assign k v (p :: m) = (p.1, v) :: assign k v m := by
  unfold assign
  rw [List.map_cons, if_pos hkey]

theorem assign_of_not_present (h : ¬ Present k m) (v : ν) : assign k v m = m := by
  unfold assign
  conv_rhs => rw [← List.map_id m]
  apply List.map_congr_left
  intro p hp
  rw [if_neg (fun hkey => h ⟨p, hp, hkey⟩)]
  rfl

theorem distinct_iff_keys :
    Distinct m ↔ (m.map Prod.fst).Pairwise fun a b => (a == b) = false := by
  rw [List.pairwise_map]
  rfl

theorem length_update (k : κ) (d : ν) (f : ν → ν) (m : List (κ × ν)) :
    (update k d f m).length =
      if (lookup k m).isNone then m.length + 1 else m.length := by
  unfold update
  cases lookup k m with
  | none => rfl
  | some v => exact List.length_map _

end

section

variable [EquivBEq κ] {k : κ} {m m' : List (κ × ν)}

theorem Distinct.perm (h : Distinct m) (hperm : m.Perm m') : Distinct m' := by
  refine hperm.pairwise h ?_
  intro p q hpq
  rw [← Bool.not_eq_true] at hpq ⊢
  exact fun hqp => hpq (BEq.symm hqp)

/-- A key has one value. -/
theorem Distinct.eq_of_beq (h : Distinct m) {p q : κ × ν} (hp : p ∈ m)
    (hq : q ∈ m) (hkey : (p.1 == q.1) = true) : p = q := by
  induction m with
  | nil => cases hp
  | cons r m ih =>
    obtain ⟨hhead, htail⟩ := List.pairwise_cons.mp h
    have hnot : ∀ s ∈ m, ¬ (r.1 == s.1) = true := by
      intro s hs
      rw [hhead s hs]
      exact Bool.false_ne_true
    cases List.mem_cons.mp hp with
    | inl hpr =>
      cases List.mem_cons.mp hq with
      | inl hqr => rw [hpr, hqr]
      | inr hqm => exact absurd (hpr ▸ hkey) (hnot q hqm)
    | inr hpm =>
      cases List.mem_cons.mp hq with
      | inl hqr => exact absurd (BEq.symm (hqr ▸ hkey)) (hnot p hpm)
      | inr hqm => exact ih htail hpm hqm

theorem Distinct.lookup_eq_some_iff (h : Distinct m) {v : ν} :
    lookup k m = some v ↔ ∃ p ∈ m, (k == p.1) = true ∧ p.2 = v := by
  refine ⟨mem_of_lookup, ?_⟩
  intro hp
  obtain ⟨p, hp, hkey, hv⟩ := hp
  cases hlookup : lookup k m with
  | none => exact absurd ⟨p, hp, hkey⟩ (lookup_eq_none_iff.mp hlookup)
  | some w =>
    obtain ⟨q, hq, hkeyQ, hw⟩ := mem_of_lookup hlookup
    have heq : p = q := h.eq_of_beq hp hq (BEq.trans (BEq.symm hkey) hkeyQ)
    rw [← hw, ← hv, heq]

theorem Distinct.lookup_perm (h : Distinct m) (hperm : m.Perm m') (k : κ) :
    lookup k m = lookup k m' := by
  refine Option.ext fun v => ?_
  rw [h.lookup_eq_some_iff, (h.perm hperm).lookup_eq_some_iff]
  constructor
  · intro hp
    obtain ⟨p, hp, hv⟩ := hp
    exact ⟨p, hperm.subset hp, hv⟩
  · intro hp
    obtain ⟨p, hp, hv⟩ := hp
    exact ⟨p, hperm.symm.subset hp, hv⟩

theorem Distinct.update_perm (h : Distinct m) (hperm : m.Perm m') (k : κ) (d : ν)
    (f : ν → ν) :
    (KeyedPairs.update k d f m).Perm (KeyedPairs.update k d f m') := by
  unfold KeyedPairs.update
  rw [h.lookup_perm hperm]
  cases lookup k m' with
  | none => exact hperm.cons _
  | some v => exact hperm.map _

end

end KeyedPairs
