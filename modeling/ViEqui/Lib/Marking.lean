import Mathlib.Logic.Relation
import Mathlib.Order.Bounds.Basic
import Mathlib.Data.Set.Lattice
import Mathlib.Data.List.Count

/-!
# Marking what is reached

A depth-first search over numbers that marks what it visits in a vector of
flags.  The recursion is bounded by fuel, and one more than the number of
unmarked elements is enough (`mark_spec`).  `markAll_isLeast`: a search from
several roots marks the least set that contains them and is closed under
successors.
-/

namespace Marking

open Relation

variable {succ : Nat → List Nat}

/-- The flag of `i`. -/
def marked (acc : List Bool) (i : Nat) : Bool := acc.getD i false

/-- The search from `i`. -/
def mark (succ : Nat → List Nat) : Nat → List Bool → Nat → List Bool
  | 0, acc, _ => acc
  | fuel + 1, acc, i =>
    if marked acc i then acc else (succ i).foldl (mark succ fuel) (acc.set i true)

/-- The search from those of the first `n` numbers that are roots. -/
def markAll (succ : Nat → List Nat) (root : Nat → Bool) (n : Nat) : List Bool :=
  (List.range n).foldl (fun acc i => if root i then mark succ (n + 1) acc i else acc)
    (List.replicate n false)

/-- The successors of the first `n` numbers are below `n`. -/
def InRange (succ : Nat → List Nat) (n : Nat) : Prop := ∀ i < n, ∀ j ∈ succ i, j < n

/-- A set that contains the successors of its elements. -/
def Closed (succ : Nat → List Nat) (t : Set Nat) : Prop := ∀ i ∈ t, ∀ j ∈ succ i, j ∈ t

/-- What a search adds to the marks. -/
structure Adds (succ : Nat → List Nat) (starts : List Nat) (acc r : List Bool) : Prop where
  length : r.length = acc.length
  grows : ∀ k, marked acc k → marked r k
  visits : ∀ i ∈ starts, marked r i
  closed : ∀ k, marked r k → ¬ marked acc k → ∀ j ∈ succ k, marked r j
  reached : ∀ k, marked r k → marked acc k ∨
    ∃ i ∈ starts, ReflTransGen (fun a b => b ∈ succ a) i k

theorem Closed.reaches {t : Set Nat} (h : Closed succ t) {i k : Nat} (hi : i ∈ t)
    (hpath : ReflTransGen (fun a b => b ∈ succ a) i k) : k ∈ t := by
  induction hpath with
  | refl => exact hi
  | tail _ hstep ih => exact h _ ih _ hstep

theorem marked_set (acc : List Bool) {i : Nat} (hi : i < acc.length) (k : Nat) :
    marked (acc.set i true) k ↔ k = i ∨ marked acc k := by
  unfold marked
  rw [List.getD_eq_getElem?_getD, List.getD_eq_getElem?_getD, List.getElem?_set]
  by_cases hk : i = k
  · subst hk
    simp [hi]
  · simp [hk, Ne.symm hk]

theorem lt_of_marked {acc : List Bool} {k : Nat} (h : marked acc k) : k < acc.length := by
  by_contra hk
  unfold marked at h
  rw [List.getD_eq_getElem?_getD, List.getElem?_eq_none (by omega)] at h
  cases h

/-- More marks leave fewer unmarked elements. -/
theorem count_false_le {acc r : List Bool} (hlength : r.length = acc.length)
    (hgrows : ∀ k, marked acc k → marked r k) : r.count false ≤ acc.count false := by
  induction acc generalizing r with
  | nil => simp [List.length_eq_zero_iff.mp hlength]
  | cons a acc ih =>
    cases r with
    | nil => cases hlength
    | cons b r =>
      have htail := ih (Nat.succ.inj hlength) fun k hk => hgrows (k + 1) hk
      have hhead : a = true → b = true := hgrows 0
      rw [List.count_cons, List.count_cons]
      cases a <;> cases b <;> simp at hhead ⊢ <;> omega

theorem count_false_set {acc : List Bool} {i : Nat} (hi : i < acc.length)
    (hnew : ¬ marked acc i) : (acc.set i true).count false < acc.count false := by
  induction acc generalizing i with
  | nil => cases hi
  | cons a acc ih =>
    cases i with
    | zero =>
      have ha : a = false := by simpa [marked] using hnew
      subst ha
      simp
    | succ i =>
      have htail := ih (Nat.lt_of_succ_lt_succ hi) hnew
      rw [List.set_cons_succ, List.count_cons, List.count_cons]
      omega

theorem Adds.refl (acc : List Bool) : Adds succ [] acc acc :=
  ⟨rfl, fun _ h => h, nofun, fun _ h hn => absurd h hn, fun _ h => Or.inl h⟩

theorem Adds.append {xs ys : List Nat} {acc r r' : List Bool} (h : Adds succ xs acc r)
    (h' : Adds succ ys r r') : Adds succ (xs ++ ys) acc r' where
  length := h'.length.trans h.length
  grows k hk := h'.grows k (h.grows k hk)
  visits i hi := by
    rcases List.mem_append.mp hi with hi | hi
    · exact h'.grows i (h.visits i hi)
    · exact h'.visits i hi
  closed k hk hnew j hj := by
    by_cases hkr : marked r k
    · exact h'.grows j (h.closed k hkr hnew j hj)
    · exact h'.closed k hk hkr j hj
  reached k hk := by
    rcases h'.reached k hk with hk | ⟨i, hi, hpath⟩
    · rcases h.reached k hk with hk | ⟨i, hi, hpath⟩
      · exact Or.inl hk
      · exact Or.inr ⟨i, List.mem_append_left _ hi, hpath⟩
    · exact Or.inr ⟨i, List.mem_append_right _ hi, hpath⟩

/-- A new element is marked and its successors are searched. -/
theorem Adds.visit {acc r : List Bool} {i : Nat} (hi : i < acc.length)
    (h : Adds succ (succ i) (acc.set i true) r) : Adds succ [i] acc r where
  length := by rw [h.length, List.length_set]
  grows k hk := h.grows k ((marked_set acc hi k).mpr (Or.inr hk))
  visits k hk := by
    rw [List.mem_singleton.mp hk]
    exact h.grows i ((marked_set acc hi i).mpr (Or.inl rfl))
  closed k hk hnew j hj := by
    by_cases hki : k = i
    · subst hki
      exact h.visits j hj
    · refine h.closed k hk (fun hset => ?_) j hj
      exact ((marked_set acc hi k).mp hset).elim hki hnew
  reached k hk := by
    rcases h.reached k hk with hk | ⟨j, hj, hpath⟩
    · rcases (marked_set acc hi k).mp hk with rfl | hk
      · exact Or.inr ⟨k, List.mem_singleton_self k, .refl⟩
      · exact Or.inl hk
    · exact Or.inr ⟨i, List.mem_singleton_self i, hpath.head hj⟩

/-- The search of several elements, from the search of one. -/
theorem adds_foldl {n fuel : Nat} {f : List Bool → Nat → List Bool}
    (hf : ∀ acc i, acc.length = n → acc.count false < fuel → i < n → Adds succ [i] acc (f acc i))
    (xs : List Nat) (hxs : ∀ i ∈ xs, i < n) (acc : List Bool) (hlength : acc.length = n)
    (hfuel : acc.count false < fuel) : Adds succ xs acc (xs.foldl f acc) := by
  induction xs generalizing acc with
  | nil => exact .refl acc
  | cons i xs ih =>
    have hi := hf acc i hlength hfuel (hxs i List.mem_cons_self)
    have hle := count_false_le hi.length hi.grows
    exact hi.append (ih (fun j hj => hxs j (List.mem_cons_of_mem i hj)) (f acc i)
      (hi.length.trans hlength) (by omega))

theorem mark_spec {n : Nat} (hrange : InRange succ n) (fuel : Nat) (acc : List Bool) (i : Nat)
    (hlength : acc.length = n) (hfuel : acc.count false < fuel) (hi : i < n) :
    Adds succ [i] acc (mark succ fuel acc i) := by
  induction fuel generalizing acc i with
  | zero => cases hfuel
  | succ fuel ih =>
    unfold mark
    split
    · next hold =>
      refine ⟨rfl, fun _ h => h, ?_, fun _ h hn => absurd h hn, fun _ h => Or.inl h⟩
      intro k hk
      rwa [List.mem_singleton.mp hk]
    · next hnew =>
      have hlt := count_false_set (hlength ▸ hi) hnew
      refine Adds.visit (hlength ▸ hi) (adds_foldl (fun acc j => ih acc j) (succ i)
        (hrange i hi) _ (by rw [List.length_set, hlength]) (by omega))

/-- The search of all roots, from no marks. -/
theorem adds_markAll {n : Nat} (hrange : InRange succ n) (root : Nat → Bool) :
    Adds succ ((List.range n).filter root) (List.replicate n false) (markAll succ root n) := by
  have hfold : markAll succ root n =
      ((List.range n).filter root).foldl (mark succ (n + 1)) (List.replicate n false) := by
    rw [List.foldl_filter]
    rfl
  rw [hfold]
  refine adds_foldl (fun acc i => mark_spec hrange (n + 1) acc i) _ (fun i hi => ?_) _
    List.length_replicate ?_
  · exact List.mem_range.mp (List.mem_filter.mp hi).1
  · rw [List.count_replicate_self]
    exact Nat.lt_succ_self n

theorem length_markAll {n : Nat} (hrange : InRange succ n) (root : Nat → Bool) :
    (markAll succ root n).length = n := by
  rw [(adds_markAll hrange root).length, List.length_replicate]

/-- The marks are the least closed set that contains the roots. -/
theorem markAll_isLeast {n : Nat} (hrange : InRange succ n) (root : Nat → Bool) :
    IsLeast {t : Set Nat | {i | i < n ∧ root i} ⊆ t ∧ Closed succ t}
      {i | marked (markAll succ root n) i} := by
  have hnone : ∀ k, ¬ marked (List.replicate n false) k := by
    intro k hk
    unfold marked at hk
    rw [List.getD_eq_getElem?_getD, List.getElem?_replicate] at hk
    split at hk <;> cases hk
  have hadds := adds_markAll hrange root
  constructor
  · constructor
    · intro i ⟨hi, hroot⟩
      exact hadds.visits i (List.mem_filter.mpr ⟨List.mem_range.mpr hi, hroot⟩)
    · intro i hi
      exact hadds.closed i hi (hnone i)
  · intro t ⟨hroots, hclosed⟩ k hk
    rcases hadds.reached k hk with hk | ⟨i, hi, hpath⟩
    · exact absurd hk (hnone k)
    · obtain ⟨hmem, hroot⟩ := List.mem_filter.mp hi
      exact hclosed.reaches (hroots ⟨List.mem_range.mp hmem, hroot⟩) hpath

end Marking
